import Mathlib
import MintWatch.Proofs.Interface.Presentation
import MintWatch.Proofs.Json.Nesting
/-!
# Interfaces that fit into a text

A parameter stands in an object, and its components in an array inside that, so every level
of a parameter takes two of the levels that a text may have.  Three more are the array of the
descriptors, the object of one of them and the array of its inputs; the innermost parameters
need no array.  The interfaces with a text are those whose parameters are not nested deeper.
-/

namespace MintWatch

namespace Json

/-- An array takes a level of its own. -/
theorem exists_lists_iff
    {α : Type} {presents : α → Json → Prop} {items : List α} {depth : Nat} :
    (∃ value, Lists presents items value ∧ CanBeWritten depth value) ↔
      ∃ fewer, depth = fewer + 1 ∧
        ∀ item ∈ items, ∃ value, presents item value ∧ CanBeWritten fewer value := by
  constructor
  · rintro ⟨_, ⟨values, rfl, hvalues⟩, hwritten⟩
    obtain ⟨fewer, rfl, hitems⟩ := canBeWritten_array_iff.mp hwritten
    refine ⟨fewer, rfl, ?_⟩
    intro item hitem
    obtain ⟨value, hvalue, hpresents⟩ := exists_left_of_forall₂ hvalues.flip hitem
    exact ⟨value, hpresents, hitems value hvalue⟩
  · rintro ⟨fewer, rfl, hitems⟩
    obtain ⟨values, hvalues⟩ := exists_forall₂ hitems
    refine ⟨.array values, ⟨values, rfl, hvalues.imp fun _ _ hboth => hboth.1⟩, ?_⟩
    apply canBeWritten_array_iff.mpr
    refine ⟨fewer, rfl, ?_⟩
    intro value hvalue
    obtain ⟨item, _, _, hwritten⟩ := exists_left_of_forall₂ hvalues hvalue
    exact hwritten

end Json

namespace Param

mutual

/-- How many parameters stand inside each other, the outermost one included. -/
def depth : Param → Nat
  | ⟨_, _, components⟩ => 1 + deepest components

def deepest : List Param → Nat
  | [] => 0
  | param :: rest => max (depth param) (deepest rest)

end

theorem two_mul_deepest_le_iff
    {params : List Param} {limit : Nat} :
    2 * deepest params ≤ limit ↔ ∀ param ∈ params, 2 * param.depth ≤ limit :=
  forall_iff_of_cons (fun params => 2 * deepest params ≤ limit) (by simp [deepest])
    (fun param rest => by rw [deepest]; omega) params

theorem one_le_deepest
    {params : List Param}
    (hsome : params ≠ []) :
    1 ≤ deepest params := by
  obtain ⟨⟨name, type, components⟩, rest, rfl⟩ := List.exists_cons_of_ne_nil hsome
  rw [deepest, depth]
  omega

/-- Whether a parameter can be presented in a text exactly if its levels fit into so many. -/
def TakesTwoLevels (param : Param) : Prop :=
  ∀ depth, (∃ value, IsPresentedBy param value ∧ Json.CanBeWritten depth value) ↔
    2 * param.depth ≤ depth + 1

theorem exists_lists_iff
    {params : List Param}
    (hparams : ∀ param ∈ params, TakesTwoLevels param)
    (depth : Nat) :
    (∃ value, Json.Lists IsPresentedBy params value ∧ Json.CanBeWritten depth value) ↔
      1 ≤ depth ∧ ∀ param ∈ params, 2 * param.depth ≤ depth := by
  constructor
  · intro hlisted
    obtain ⟨fewer, rfl, heach⟩ := Json.exists_lists_iff.mp hlisted
    exact ⟨Nat.le_add_left .., fun param hparam =>
      (hparams param hparam fewer).mp (heach param hparam)⟩
  · rintro ⟨hpos, heach⟩
    obtain ⟨fewer, rfl⟩ : ∃ fewer, depth = fewer + 1 := ⟨depth - 1, by omega⟩
    exact Json.exists_lists_iff.mpr ⟨fewer, rfl, fun param hparam =>
      (hparams param hparam fewer).mpr (heach param hparam)⟩

/-- The members of a parameter, with its components if they are given. -/
def shownMembers (name type : String) (listed : Option Json) : List (String × Json) :=
  ("name", .string name) :: ("type", .string type) ::
    (listed.map fun value => ("components", value)).toList

theorem haveDistinctKeys_shownMembers
    (name type : String) (listed : Option Json) :
    Json.HaveDistinctKeys (shownMembers name type listed) := by
  cases listed <;> simp [Json.HaveDistinctKeys, shownMembers]

theorem isPresentedBy_shownMembers
    {components : List Param} (listed : Option Json)
    (hlisted : listed.elim (components = []) (Json.Lists IsPresentedBy components))
    (name type : String) :
    IsPresentedBy ⟨name, type, components⟩ (.object (shownMembers name type listed)) := by
  apply isPresentedBy_iff.mpr
  refine ⟨_, rfl, haveDistinctKeys_shownMembers .., .inl ⟨_, List.mem_cons_self, rfl⟩,
    List.mem_cons_of_mem _ List.mem_cons_self, ?_⟩
  cases listed with
  | none =>
      obtain rfl : components = [] := hlisted
      exact .inr ⟨rfl, by simp [Json.LeaveOut, shownMembers]⟩
  | some value =>
      exact .inl ⟨value, by simp [shownMembers], hlisted⟩

theorem canBeWritten_shownMembers
    {depth : Nat} (listed : Option Json)
    (hlisted : ∀ value ∈ listed, Json.CanBeWritten depth value)
    (name type : String) :
    Json.CanBeWritten (depth + 1) (.object (shownMembers name type listed)) := by
  apply (Json.canBeWritten_object_iff (haveDistinctKeys_shownMembers ..)).mpr
  refine ⟨depth, rfl, ?_⟩
  intro member hmember
  rcases List.mem_cons.mp hmember with rfl | hmember
  · exact Json.canBeWritten_string depth name
  · rcases List.mem_cons.mp hmember with rfl | hmember
    · exact Json.canBeWritten_string depth type
    · obtain ⟨value, hvalue, rfl⟩ := by simpa using hmember
      exact hlisted value hvalue

theorem takesTwoLevels
    (param : Param) :
    TakesTwoLevels param := by
  induction param using paramInduction with
  | mk name type components ih =>
      intro depth
      rw [Param.depth]
      constructor
      · rintro ⟨value, hpresented, hwritten⟩
        obtain ⟨members, rfl, hdistinct, _, _, hcomponents⟩ := isPresentedBy_iff.mp hpresented
        obtain ⟨fewer, rfl, hmembers⟩ := (Json.canBeWritten_object_iff hdistinct).mp hwritten
        rcases hcomponents with ⟨listed, hmember, hlisted⟩ | ⟨rfl, _⟩
        · have hlevels := (exists_lists_iff ih _).mp ⟨listed, hlisted, hmembers _ hmember⟩
          rw [← two_mul_deepest_le_iff] at hlevels
          omega
        · rw [deepest]
          omega
      · intro hlevels
        obtain ⟨fewer, rfl⟩ : ∃ fewer, depth = fewer + 1 := ⟨depth - 1, by omega⟩
        by_cases hleaf : components = []
        · subst hleaf
          exact ⟨_, isPresentedBy_shownMembers none rfl name type,
            canBeWritten_shownMembers none (by simp) name type⟩
        · have hsome : 1 ≤ deepest components := one_le_deepest hleaf
          obtain ⟨listed, hlisted, hwritten⟩ :=
            (exists_lists_iff ih fewer).mpr
              ⟨by omega, two_mul_deepest_le_iff.mp (by omega)⟩
          exact ⟨_, isPresentedBy_shownMembers (some listed) hlisted name type,
            canBeWritten_shownMembers (some listed) (by simpa using hwritten) name type⟩

end Param

/-! ## Descriptors and interfaces -/

theorem DescriptorKind.isTag_name
    (kind : DescriptorKind) :
    kind.IsTag kind.name := by
  cases kind with
  | function => rfl
  | constructor => rfl
  | other => exact ⟨by decide, by decide⟩

namespace Descriptor

/-- The members of a descriptor, all of them given. -/
def shownMembers (descriptor : Descriptor) (listed : Json) : List (String × Json) :=
  [("type", .string descriptor.kind.name), ("name", descriptor.name.elim .null .string),
    ("inputs", listed)]

theorem haveDistinctKeys_shownMembers
    (descriptor : Descriptor) (listed : Json) :
    Json.HaveDistinctKeys (shownMembers descriptor listed) := by
  simp [Json.HaveDistinctKeys, shownMembers]

theorem isPresentedBy_shownMembers
    {descriptor : Descriptor} {listed : Json}
    (hlisted : Json.Lists Param.IsPresentedBy descriptor.inputs listed) :
    descriptor.IsPresentedBy (.object (shownMembers descriptor listed)) :=
  ⟨_, rfl, haveDistinctKeys_shownMembers .., .inl ⟨_, by simp [shownMembers], _, rfl,
    descriptor.kind.isTag_name⟩, .inl ⟨_, by simp [shownMembers], rfl⟩,
    .inl ⟨_, by simp [shownMembers], hlisted⟩⟩

theorem canBeWritten_shownMembers
    {descriptor : Descriptor} {listed : Json} {depth : Nat}
    (hlisted : Json.CanBeWritten depth listed) :
    Json.CanBeWritten (depth + 1) (.object (shownMembers descriptor listed)) := by
  apply (Json.canBeWritten_object_iff (haveDistinctKeys_shownMembers ..)).mpr
  refine ⟨depth, rfl, ?_⟩
  have hname : Json.CanBeWritten depth (descriptor.name.elim .null .string) := by
    cases descriptor.name with
    | none => exact ⟨_, Json.IsScalar.null.isWritten⟩
    | some name => exact Json.canBeWritten_string depth name
  simp only [shownMembers, List.forall_mem_cons, Json.canBeWritten_string, hname, hlisted]
  simp

theorem exists_presentation_iff
    {descriptor : Descriptor} {depth : Nat} :
    (∃ value, descriptor.IsPresentedBy value ∧ Json.CanBeWritten (depth + 2) value) ↔
      ∀ param ∈ descriptor.inputs, 2 * param.depth ≤ depth + 1 := by
  have hinputs := Param.exists_lists_iff
    (fun param (_ : param ∈ descriptor.inputs) => param.takesTwoLevels) (depth + 1)
  constructor
  · rintro ⟨_, ⟨members, rfl, hdistinct, _, _, hmember⟩, hwritten⟩
    obtain ⟨fewer, hfewer, hmembers⟩ := (Json.canBeWritten_object_iff hdistinct).mp hwritten
    obtain rfl : fewer = depth + 1 := by omega
    rcases hmember with ⟨listed, hmember, hlisted⟩ | ⟨hnone, _⟩
    · exact (hinputs.mp ⟨listed, hlisted, hmembers _ hmember⟩).2
    · rw [hnone]
      exact fun _ hparam => absurd hparam List.not_mem_nil
  · intro hparams
    obtain ⟨listed, hlisted, hwritten⟩ := hinputs.mpr ⟨Nat.le_add_left .., hparams⟩
    exact ⟨_, isPresentedBy_shownMembers hlisted, canBeWritten_shownMembers hwritten⟩

end Descriptor

namespace Interface

theorem exists_lists_iff
    {interface : Interface} {depth : Nat} :
    (∃ value, Json.Lists Descriptor.IsPresentedBy interface value ∧ Json.CanBeWritten (depth + 3) value) ↔
      ∀ descriptor ∈ interface, ∀ param ∈ descriptor.inputs, 2 * param.depth ≤ depth + 1 := by
  constructor
  · intro hlisted
    obtain ⟨fewer, hfewer, heach⟩ := Json.exists_lists_iff.mp hlisted
    obtain rfl : fewer = depth + 2 := by omega
    exact fun descriptor hdescriptor =>
      Descriptor.exists_presentation_iff.mp (heach descriptor hdescriptor)
  · intro hparams
    exact Json.exists_lists_iff.mpr ⟨depth + 2, rfl, fun descriptor hdescriptor =>
      Descriptor.exists_presentation_iff.mpr (hparams descriptor hdescriptor)⟩

/-- Whether no parameter is nested deeper than a text may be. -/
def FitsText (interface : Interface) : Prop :=
  ∀ descriptor ∈ interface, ∀ param ∈ descriptor.inputs, 2 * param.depth + 2 ≤ Json.depthLimit

theorem exists_text_iff
    {interface : Interface} :
    (∃ text, IsPresentedIn interface text) ↔ interface.FitsText := by
  have hlimit : Json.depthLimit = 124 + 3 := rfl
  -- An artifact takes one level more.  That is never the one that is missing: the parameters
  -- take an even number of levels, and the limit leaves them an odd one.
  constructor
  · rintro ⟨text, value, hwritten, hpresented⟩ descriptor hdescriptor param hparam
    have hvalue := Json.exists_text_iff.mp ⟨text, hwritten⟩
    rw [hlimit] at hvalue
    rcases hpresented with hbare | ⟨members, listed, rfl, hdistinct, habi, hlisted⟩
    · have hparams := exists_lists_iff.mp ⟨value, hbare, hvalue⟩
      have hlevels := hparams descriptor hdescriptor param hparam
      omega
    · obtain ⟨fewer, hfewer, hmembers⟩ := (Json.canBeWritten_object_iff hdistinct).mp hvalue
      obtain rfl : fewer = 123 + 3 := by omega
      have hparams := exists_lists_iff.mp ⟨listed, hlisted, hmembers _ habi⟩
      have hlevels := hparams descriptor hdescriptor param hparam
      omega
  · intro hfits
    have hparams : ∀ descriptor ∈ interface, ∀ param ∈ descriptor.inputs,
        2 * param.depth ≤ 124 + 1 := by
      intro descriptor hdescriptor param hparam
      have hlevels := hfits descriptor hdescriptor param hparam
      omega
    obtain ⟨value, hlisted, hvalue⟩ := exists_lists_iff.mpr hparams
    obtain ⟨text, hwritten⟩ := Json.exists_text_iff.mpr hvalue
    exact ⟨text, value, hwritten, .inl hlisted⟩

/--
The interfaces with a text are those whose parameters are not nested too deep, and from each of
their texts they are read as they are.  An artifact inside an artifact is refused.
-/
theorem read_presented_text
    (interface : Interface) :
    ((∃ text, IsPresentedIn interface text) ↔ interface.FitsText) ∧
      (∀ text, IsPresentedIn interface text → read text = .ok interface) ∧
      ∀ text members inner, Json.IsWrittenAs text (.object members) →
        ("abi", .object inner) ∈ members → read text = .error .unreadable :=
  ⟨exists_text_iff, fun _ => read_of_isPresentedIn, fun _ _ _ => read_of_wrapped_artifact⟩

/-- A function with a tuple whose component has no name, and an event. -/
def orders : Interface :=
  [.function "buy" [⟨"orders", "tuple[]", [.plain "" "bool"]⟩], ⟨.other, none, []⟩]

def ordersText : String :=
  "\x7b\"abi\": [\x7b\"inputs\":[\x7b\"components\":[\x7b\"type\":\"bool\"\x7d]," ++
    "\"name\":\"order\\u0073\",\"type\":\"tuple[]\"\x7d],\"name\":\"buy\",\"payable\":true\x7d," ++
    "\x7b\"type\":\"event\"\x7d],\"v\":[]\x7d"

def orderMembers : List (String × Json) :=
  [("components", .array [.object [("type", .string "bool")]]), ("name", .string "orders"),
    ("type", .string "tuple[]")]

def buyMembers : List (String × Json) :=
  [("inputs", .array [.object orderMembers]), ("name", .string "buy"), ("payable", .bool true)]

def artifactMembers : List (String × Json) :=
  [("abi", .array [.object buyMembers, .object [("type", .string "event")]]), ("v", .array [])]

theorem isPresentedIn_ordersText :
    IsPresentedIn orders ordersText := by
  have hread : Json.read? ordersText = some (.object artifactMembers) := by
    cbv
  have hcomponent : Param.IsPresentedBy (.plain "" "bool")
      (.object [("type", .string "bool")]) := by
    apply Param.isPresentedBy_iff.mpr
    exact ⟨_, rfl, by simp [Json.HaveDistinctKeys], .inr ⟨rfl, by simp [Json.LeaveOut]⟩,
      List.mem_cons_self, .inr ⟨rfl, by simp [Json.LeaveOut]⟩⟩
  have horder : Param.IsPresentedBy ⟨"orders", "tuple[]", [.plain "" "bool"]⟩
      (.object orderMembers) := by
    apply Param.isPresentedBy_iff.mpr
    exact ⟨_, rfl, by simp [Json.HaveDistinctKeys, orderMembers],
      .inl ⟨_, by simp [orderMembers], rfl⟩, by simp [orderMembers],
      .inl ⟨_, List.mem_cons_self, _, rfl, .cons hcomponent .nil⟩⟩
  have hbuy : Descriptor.IsPresentedBy
      (.function "buy" [⟨"orders", "tuple[]", [.plain "" "bool"]⟩]) (.object buyMembers) :=
    ⟨_, rfl, by simp [Json.HaveDistinctKeys, buyMembers],
      .inr ⟨rfl, by simp [Json.LeaveOut, buyMembers]⟩,
      .inl ⟨.string "buy", by simp [buyMembers], rfl⟩,
      .inl ⟨_, List.mem_cons_self, _, rfl, .cons horder .nil⟩⟩
  have hevent : Descriptor.IsPresentedBy ⟨.other, none, []⟩ (.object [("type", .string "event")]) :=
    ⟨_, rfl, by simp [Json.HaveDistinctKeys],
      .inl ⟨_, List.mem_cons_self, "event", rfl, by decide, by decide⟩,
      .inr ⟨rfl, by simp [Json.LeaveOut]⟩, .inr ⟨rfl, by simp [Json.LeaveOut]⟩⟩
  exact ⟨_, Json.read?_eq_some_iff.mp hread, .inr ⟨_, _, rfl,
    by simp [Json.HaveDistinctKeys, artifactMembers], List.mem_cons_self,
    _, rfl, .cons hbuy (.cons hevent .nil)⟩⟩

theorem read_presented_text_orders :
    orders.FitsText ∧ read ordersText = .ok orders ∧
      read "\x7b\"abi\":\x7b\"abi\":[]\x7d\x7d" = .error .unreadable := by
  obtain ⟨hfits, hread, hwrapped⟩ := read_presented_text orders
  have hwritten : Json.IsWrittenAs "\x7b\"abi\":\x7b\"abi\":[]\x7d\x7d"
      (.object [("abi", .object [("abi", .array [])])]) := by
    apply Json.read?_eq_some_iff.mp
    cbv
  exact ⟨hfits.mp ⟨_, isPresentedIn_ordersText⟩, hread _ isPresentedIn_ordersText,
    hwrapped _ _ _ hwritten List.mem_cons_self⟩

end Interface
end MintWatch
