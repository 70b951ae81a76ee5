import Mathlib
import MintWatch.Interface.Index
import MintWatch.Proofs.Abi.TypeText
/-!
# The type that a parameter declares

The type of a parameter can be read off its tree: a leaf has the type that its own text
denotes, and a tuple is made of the types of its components, wrapped by its array suffixes
from left to right.  A text that begins with `tuple` declares a tuple, and any other text a
leaf.  Resolving a parameter does not go through the tree: it writes the whole parameter as
one text and reads that.  Where the tree has a type of few enough tuples inside each other,
this gives the same type.
-/

namespace MintWatch
namespace Param

open Abi

/-- The array type that the digits between two brackets make of a type. -/
def arrayOf? (item : Ty) (digits : List Char) : Option Ty :=
  if digits.isEmpty then some (.array item)
  else (Count.ofNat? (Text.decimal digits)).map (.fixedArray item)

mutual

/-- What array suffixes make of a type, the first of them innermost. -/
def withSuffixes? (item : Ty) : List Char → Option Ty
  | [] => some item
  | '[' :: rest => withBracket? item [] rest
  | _ => none

/-- The same from inside a bracket on, some of whose digits stand before. -/
def withBracket? (item : Ty) (digits : List Char) : List Char → Option Ty
  | [] => none
  | ']' :: rest => (arrayOf? item digits).bind fun array => withSuffixes? array rest
  | c :: rest => if c.isDigit then withBracket? item (digits ++ [c]) rest else none

end

mutual

/-- The type that a parameter declares, read off its tree. -/
def declaredType? : Param → Option Ty
  | ⟨_, type, components⟩ =>
    match tupleSuffix? type with
    | none => if components.isEmpty then (Ty.ofText type).toOption else none
    | some suffix =>
      if components.isEmpty then none
      else (declaredTypes? components).bind fun types => withSuffixes? (.tuple types) suffix

def declaredTypes? : List Param → Option (List Ty)
  | [] => some []
  | param :: rest =>
    match declaredType? param with
    | none => none
    | some ty => (declaredTypes? rest).map (ty :: ·)

end

/-- What array suffixes make of a type, one suffix after the other. -/
inductive Wraps : Ty → List Char → Ty → Prop
  | none {item : Ty} :
      Wraps item [] item
  | array {item ty : Ty} {rest : List Char}
      (hrest : Wraps (.array item) rest ty) :
      Wraps item ('[' :: ']' :: rest) ty
  | fixedArray {item ty : Ty} {digits rest : List Char} {count : Count}
      (hsize : TypeForm.IsSize digits count)
      (hrest : Wraps (.fixedArray item count) rest ty) :
      Wraps item ('[' :: (digits ++ ']' :: rest)) ty

/-- Whether characters are array suffixes with the sizes that arrays can have. -/
inductive IsSizedSuffix : List Char → Prop
  | none :
      IsSizedSuffix []
  | array {rest : List Char}
      (hrest : IsSizedSuffix rest) :
      IsSizedSuffix ('[' :: ']' :: rest)
  | fixedArray {digits rest : List Char} {count : Count}
      (hsize : TypeForm.IsSize digits count)
      (hrest : IsSizedSuffix rest) :
      IsSizedSuffix ('[' :: (digits ++ ']' :: rest))

/-- Whether every text in the tree of a parameter says what its place asks for. -/
inductive IsDeclaration : Param → Prop
  | leaf {name type : String}
      (hleaf : tupleSuffix? type = none)
      (hread : ∃ ty, Ty.ofText type = .ok ty) :
      IsDeclaration ⟨name, type, []⟩
  | tuple {name type : String} {components : List Param} {suffix : List Char}
      (htuple : tupleSuffix? type = some suffix)
      (hsuffix : IsSizedSuffix suffix)
      (hsome : components ≠ [])
      (hcomponents : ∀ param ∈ components, IsDeclaration param) :
      IsDeclaration ⟨name, type, components⟩

theorem paramInduction
    {motive : Param → Prop}
    (mk : ∀ name type components, (∀ param ∈ components, motive param) →
      motive ⟨name, type, components⟩)
    (param : Param) :
    motive param :=
  @Param.rec motive (fun params => ∀ param ∈ params, motive param) mk
    (fun _ hmember => absurd hmember List.not_mem_nil)
    (fun _ _ hfirst hrest => List.forall_mem_cons.mpr ⟨hfirst, hrest⟩) param

/-! ## Lists of parameters -/

theorem canonicalTypes_eq_ok_iff
    {params : List Param} {texts : List String} :
    canonicalTypes params = .ok texts ↔
      List.Forall₂ (fun param text => canonicalType param = .ok text) params texts := by
  apply forall₂_iff_of_cons (fun params texts => canonicalTypes params = .ok texts)
  · simp [canonicalTypes, eq_comm]
  · intro param rest texts
    rw [canonicalTypes]
    cases canonicalType param <;> simp [map_eq_ok_iff]

theorem declaredTypes?_eq_some_iff
    {params : List Param} {types : List Ty} :
    declaredTypes? params = some types ↔
      List.Forall₂ (fun param ty => declaredType? param = some ty) params types := by
  apply forall₂_iff_of_cons (fun params types => declaredTypes? params = some types)
  · simp [declaredTypes?, eq_comm]
  · intro param rest types
    rw [declaredTypes?]
    cases declaredType? param <;> simp

/-! ## Array suffixes -/

theorem withBracket?_digits
    {digits : List Char}
    (hdigits : ∀ c ∈ digits, c.isDigit = true)
    (item : Ty) (front rest : List Char) :
    withBracket? item front (digits ++ ']' :: rest) =
      (arrayOf? item (front ++ digits)).bind fun array => withSuffixes? array rest := by
  induction digits generalizing front with
  | nil => rw [List.nil_append, withBracket?, List.append_nil]
  | cons c digits ih =>
      rw [List.forall_mem_cons] at hdigits
      have hbracket : c ≠ ']' := by
        rintro rfl
        exact absurd hdigits.1 (by decide)
      rw [List.cons_append, withBracket?.eq_3, if_pos hdigits.1, ih hdigits.2]
      · simp
      · exact hbracket

theorem wraps_of_arrayOf?
    {item array ty : Ty} {digits rest : List Char}
    (hdigits : ∀ c ∈ digits, c.isDigit = true)
    (harray : arrayOf? item digits = some array)
    (hrest : Wraps array rest ty) :
    Wraps item ('[' :: (digits ++ ']' :: rest)) ty := by
  unfold arrayOf? at harray
  split at harray
  · rename_i hnone
    obtain rfl := Option.some.inj harray
    rw [List.isEmpty_iff.mp hnone]
    exact .array hrest
  · rename_i hsome
    obtain ⟨count, hcount, rfl⟩ := Option.map_eq_some_iff.mp harray
    exact .fixedArray ⟨by simpa using hsome, hdigits, Count.ofNat?_eq_some_iff.mp hcount⟩ hrest

theorem wraps_of_withSuffixes?
    (suffix : List Char) :
    (∀ item ty, withSuffixes? item suffix = some ty → Wraps item suffix ty) ∧
      (∀ item ty digits, (∀ c ∈ digits, c.isDigit = true) →
        withBracket? item digits suffix = some ty →
        Wraps item ('[' :: (digits ++ suffix)) ty) := by
  induction suffix with
  | nil =>
      constructor
      · intro item ty hwith
        rw [withSuffixes?] at hwith
        rw [← Option.some.inj hwith]
        exact .none
      · intro item ty digits _ hwith
        cases hwith
  | cons c rest ih =>
      constructor
      · intro item ty hwith
        unfold withSuffixes? at hwith
        split at hwith
        · rename_i hnil
          cases hnil
        · rename_i inner hcons
          obtain ⟨rfl, rfl⟩ := List.cons.inj hcons
          exact ih.2 item ty [] (by simp) hwith
        · cases hwith
      · intro item ty digits hdigits hwith
        unfold withBracket? at hwith
        split at hwith
        · rename_i hnil
          cases hnil
        · -- The bracket closes on the digits that stand before.
          rename_i inner hcons
          obtain ⟨rfl, rfl⟩ := List.cons.inj hcons
          obtain ⟨array, harray, hrest⟩ := Option.bind_eq_some_iff.mp hwith
          exact wraps_of_arrayOf? hdigits harray (ih.1 array ty hrest)
        · rename_i digit inner hbracket hcons
          obtain ⟨rfl, rfl⟩ := List.cons.inj hcons
          split at hwith
          · rename_i hdigit
            have hmore : ∀ one ∈ digits ++ [c], one.isDigit = true := by
              simpa [or_imp, forall_and] using ⟨hdigits, hdigit⟩
            simpa using ih.2 item ty (digits ++ [c]) hmore hwith
          · cases hwith

theorem withSuffixes?_eq_some_iff
    {item ty : Ty} {suffix : List Char} :
    withSuffixes? item suffix = some ty ↔ Wraps item suffix ty := by
  constructor
  · exact (wraps_of_withSuffixes? suffix).1 item ty
  · intro hwraps
    induction hwraps with
    | none => exact withSuffixes?.eq_1 _
    | array hrest ih => exact ih
    | fixedArray hsize hrest ih =>
        rw [withSuffixes?, withBracket?_digits hsize.2.1, List.nil_append, arrayOf?,
          if_neg (by simpa using hsize.1), Count.ofNat?_eq_some_iff.mpr hsize.2.2]
        exact ih

theorem exists_wraps
    {suffix : List Char}
    (hsuffix : IsSizedSuffix suffix)
    (item : Ty) :
    ∃ ty, Wraps item suffix ty := by
  induction hsuffix generalizing item with
  | none => exact ⟨item, .none⟩
  | array hrest ih =>
      obtain ⟨ty, hty⟩ := ih (.array item)
      exact ⟨ty, .array hty⟩
  | fixedArray hsize hrest ih =>
      obtain ⟨ty, hty⟩ := ih (.fixedArray item _)
      exact ⟨ty, .fixedArray hsize hty⟩

theorem closesBracket_digits
    {digits : List Char}
    (hdigits : ∀ c ∈ digits, c.isDigit = true)
    (rest : List Char) :
    closesBracket (digits ++ ']' :: rest) = isArraySuffix rest := by
  induction digits with
  | nil => rw [List.nil_append, closesBracket]
  | cons c digits ih =>
      rw [List.forall_mem_cons] at hdigits
      have hbracket : c ≠ ']' := by
        rintro rfl
        exact absurd hdigits.1 (by decide)
      rw [List.cons_append, closesBracket.eq_3 _ _ hbracket, hdigits.1, Bool.true_and, ih hdigits.2]

theorem Wraps.isArraySuffix
    {item ty : Ty} {suffix : List Char}
    (hwraps : Wraps item suffix ty) :
    isArraySuffix suffix = true := by
  induction hwraps with
  | none => rfl
  | array hrest ih => exact ih
  | fixedArray hsize hrest ih => rwa [MintWatch.isArraySuffix, closesBracket_digits hsize.2.1]

theorem Wraps.isDenotedBy
    {item ty : Ty} {suffix chars : List Char}
    (hwraps : Wraps item suffix ty)
    (hitem : item.IsDenotedBy chars) :
    ty.IsDenotedBy (chars ++ suffix) := by
  induction hwraps generalizing chars with
  | none => rwa [List.append_nil]
  | array hrest ih => simpa using ih hitem.array
  | fixedArray hsize hrest ih => simpa using ih (hitem.fixedArray hsize)

/-! ## One parameter -/

theorem declaredType?_leaf_eq_some_iff
    {name type : String} {components : List Param} {ty : Ty}
    (hleaf : tupleSuffix? type = none) :
    declaredType? ⟨name, type, components⟩ = some ty ↔
      components = [] ∧ Ty.ofText type = .ok ty := by
  rw [declaredType?, hleaf]
  cases components with
  | nil => simp [toOption_eq_some_iff]
  | cons param rest => simp

theorem declaredType?_tuple_eq_some_iff
    {name type : String} {components : List Param} {suffix : List Char} {ty : Ty}
    (htuple : tupleSuffix? type = some suffix) :
    declaredType? ⟨name, type, components⟩ = some ty ↔
      components ≠ [] ∧ ∃ types,
        List.Forall₂ (fun param ty => declaredType? param = some ty) components types ∧
          Wraps (.tuple types) suffix ty := by
  rw [declaredType?, htuple]
  simp only [← declaredTypes?_eq_some_iff, ← withSuffixes?_eq_some_iff]
  cases components with
  | nil => simp
  | cons param rest => simp [Option.bind_eq_some_iff]

theorem canonicalType_leaf_eq_ok_iff
    {name type text : String} {components : List Param}
    (hleaf : tupleSuffix? type = none) :
    canonicalType ⟨name, type, components⟩ = .ok text ↔ components = [] ∧ text = type := by
  rw [canonicalType, hleaf]
  cases components with
  | nil => simp [eq_comm]
  | cons param rest => simp

theorem canonicalType_tuple_eq_ok_iff
    {name type text : String} {components : List Param} {suffix : List Char}
    (htuple : tupleSuffix? type = some suffix) :
    canonicalType ⟨name, type, components⟩ = .ok text ↔
      isArraySuffix suffix = true ∧ components ≠ [] ∧ ∃ texts,
        canonicalTypes components = .ok texts ∧
          text = "(" ++ String.intercalate "," texts ++ ")" ++ String.ofList suffix := by
  rw [canonicalType, htuple]
  cases hsuffix : isArraySuffix suffix with
  | false => simp [hsuffix]
  | true =>
      cases components with
      | nil => simp [hsuffix]
      | cons param rest =>
          simp only [hsuffix, List.isEmpty_cons, Bool.not_true, Bool.false_eq_true, if_false,
            map_eq_ok_iff, ne_eq, reduceCtorEq, not_false_eq_true, true_and, eq_comm (b := text)]

/-! ## The text that is read -/

/-- The text of a tuple that is written out. -/
theorem toList_tupleText
    (texts : List String) (suffix : List Char) :
    ("(" ++ String.intercalate "," texts ++ ")" ++ String.ofList suffix).toList =
      '(' :: (List.intercalate [','] (texts.map String.toList) ++ [')']) ++ suffix := by
  simp [String.toList_intercalate]

theorem exists_texts_of_declared
    {params : List Param} {types : List Ty}
    (hdeclared : List.Forall₂ (fun param ty => declaredType? param = some ty) params types)
    (heach : ∀ param ∈ params, ∀ ty, declaredType? param = some ty →
      ∃ text, param.canonicalType = .ok text ∧ ty.IsDenotedBy text.toList) :
    ∃ texts, canonicalTypes params = .ok texts ∧
      List.Forall₂ Ty.IsDenotedBy types (texts.map String.toList) := by
  simp only [canonicalTypes_eq_ok_iff]
  induction hdeclared with
  | nil => exact ⟨[], .nil, .nil⟩
  | cons hfirst hothers ih =>
      rw [List.forall_mem_cons] at heach
      obtain ⟨text, htext, hdenoted⟩ := heach.1 _ hfirst
      obtain ⟨texts, htexts, hdenotedAll⟩ := ih heach.2
      exact ⟨text :: texts, .cons htext htexts, .cons hdenoted hdenotedAll⟩

theorem exists_canonicalType_of_declaredType?
    {param : Param} {ty : Ty}
    (hdeclared : param.declaredType? = some ty) :
    ∃ text, param.canonicalType = .ok text ∧ ty.IsDenotedBy text.toList := by
  induction param using paramInduction generalizing ty with
  | mk name type components ih =>
      cases htuple : tupleSuffix? type with
      | none =>
          obtain ⟨hnone, hread⟩ := (declaredType?_leaf_eq_some_iff htuple).mp hdeclared
          exact ⟨type, (canonicalType_leaf_eq_ok_iff htuple).mpr ⟨hnone, rfl⟩,
            (Ty.ofText_eq_ok_iff.mp hread).1⟩
      | some suffix =>
          obtain ⟨hsome, types, htypes, hwraps⟩ :=
            (declaredType?_tuple_eq_some_iff htuple).mp hdeclared
          obtain ⟨texts, htexts, hdenoted⟩ :=
            exists_texts_of_declared htypes fun param hmember ty => ih param hmember
          have hnonempty : texts.map String.toList ≠ [] := by
            rintro hnil
            rw [List.map_eq_nil_iff.mp hnil, canonicalTypes_eq_ok_iff,
              List.forall₂_nil_right_iff] at htexts
            exact hsome htexts
          have hwhole := hwraps.isDenotedBy (Ty.IsDenotedBy.tuple hdenoted hnonempty)
          rw [← toList_tupleText] at hwhole
          exact ⟨_, (canonicalType_tuple_eq_ok_iff htuple).mpr
            ⟨hwraps.isArraySuffix, hsome, texts, htexts, rfl⟩, hwhole⟩

theorem ofParam_eq_ok_iff
    {param : Param} {resolved : ResolvedParam} :
    ResolvedParam.ofParam param = .ok resolved ↔
      resolved.name = param.name ∧
        ∃ text, param.canonicalType = .ok text ∧ Ty.ofText text = .ok resolved.ty := by
  obtain ⟨name, ty⟩ := resolved
  unfold ResolvedParam.ofParam
  cases param.canonicalType with
  | error fault => simp
  | ok text =>
      dsimp only
      cases hread : Ty.ofText text with
      | error fault => simp [hread]
      | ok own => simp [hread, eq_comm]

theorem ofParam_of_declaredType?
    {param : Param} {ty : Ty}
    (hdeclared : param.declaredType? = some ty)
    (hdepth : ty.tupleDepth < 80) :
    ResolvedParam.ofParam param = .ok ⟨param.name, ty⟩ := by
  obtain ⟨text, htext, hdenoted⟩ := exists_canonicalType_of_declaredType? hdeclared
  have hread : Ty.ofText text = .ok ty :=
    Ty.ofText_eq_ok_iff.mpr ⟨hdenoted, by unfold TypeForm.depthLimit; omega⟩
  exact ofParam_eq_ok_iff.mpr ⟨rfl, text, htext, hread⟩

theorem exists_declaredType?
    {param : Param}
    (hdeclaration : param.IsDeclaration) :
    ∃ ty, param.declaredType? = some ty := by
  induction hdeclaration with
  | leaf hleaf hread =>
      obtain ⟨ty, hread⟩ := hread
      exact ⟨ty, (declaredType?_leaf_eq_some_iff hleaf).mpr ⟨rfl, hread⟩⟩
  | tuple htuple hsuffix hsome hcomponents ih =>
      obtain ⟨types, htypes⟩ := exists_forall₂ ih
      obtain ⟨ty, hwraps⟩ := exists_wraps hsuffix (.tuple types)
      exact ⟨ty, (declaredType?_tuple_eq_some_iff htuple).mpr ⟨hsome, types, htypes, hwraps⟩⟩

/--
A parameter resolves to the type that is read off its tree, if no more tuples are open
inside each other than the reader of type texts follows.
-/
theorem resolves_to_declared_type
    {param : Param}
    (hdeclaration : param.IsDeclaration) :
    ∃ ty, param.declaredType? = some ty ∧
      (ty.tupleDepth < 80 → ResolvedParam.ofParam param = .ok ⟨param.name, ty⟩) := by
  obtain ⟨ty, hdeclared⟩ := exists_declaredType? hdeclaration
  exact ⟨ty, hdeclared, ofParam_of_declaredType? hdeclared⟩

/-- A parameter whose leaves are spelled in several ways: by a short name, with a tuple
inside, qualified. -/
def orders : Param :=
  ⟨"orders", "tuple[][02]",
    [.plain "amount" "uint",
      ⟨"owner", "tuple", [.plain "account" "address", .plain "state" "Registry.State"]⟩,
      .plain "marks" "(bytes4, bool[])[]"]⟩

theorem orders_resolves_to_declared_type :
    orders.IsDeclaration ∧
      ResolvedParam.ofParam orders = .ok ⟨"orders", .fixedArray (.array (.tuple
        [.uint Width.full, .tuple [.address, .uint ⟨1, by decide, by decide⟩],
          .array (.tuple [.fixedBytes ⟨4, by decide, by decide⟩, .array .bool])]))
        ⟨2, by decide, by decide⟩⟩ := by
  have hleaf : ∀ name type, tupleSuffix? type = none → (∃ ty, Ty.ofText type = .ok ty) →
      IsDeclaration (.plain name type) := fun _ _ => .leaf
  have hsize : TypeForm.IsSize ['0', '2'] ⟨2, by decide, by decide⟩ :=
    ⟨by simp, by simp, rfl⟩
  have hsuffix : IsSizedSuffix ('[' :: ']' :: '[' :: (['0', '2'] ++ [']'])) :=
    .array (.fixedArray hsize .none)
  have howner : IsDeclaration
      ⟨"owner", "tuple", [.plain "account" "address", .plain "state" "Registry.State"]⟩ := by
    apply IsDeclaration.tuple rfl .none (by simp)
    simp only [List.forall_mem_cons]
    exact ⟨hleaf _ _ rfl ⟨_, rfl⟩, hleaf _ _ rfl ⟨_, rfl⟩, by simp⟩
  have horders : orders.IsDeclaration := by
    apply IsDeclaration.tuple rfl hsuffix (by simp)
    simp only [List.forall_mem_cons]
    exact ⟨hleaf _ _ rfl ⟨_, rfl⟩, howner, hleaf _ _ rfl ⟨_, rfl⟩, by simp⟩
  have htype : orders.declaredType? = some (.fixedArray (.array (.tuple
      [.uint Width.full, .tuple [.address, .uint ⟨1, by decide, by decide⟩],
        .array (.tuple [.fixedBytes ⟨4, by decide, by decide⟩, .array .bool])]))
      ⟨2, by decide, by decide⟩) := by
    cbv
  obtain ⟨ty, hdeclared, hresolves⟩ := resolves_to_declared_type horders
  rw [htype] at hdeclared
  obtain rfl := Option.some.inj hdeclared
  exact ⟨horders, hresolves (by simp [Ty.tupleDepth, Ty.deepestTuple])⟩

end Param
end MintWatch
