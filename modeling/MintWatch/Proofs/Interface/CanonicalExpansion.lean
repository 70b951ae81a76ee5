import Mathlib
import MintWatch.Proofs.Interface.DeclaredType
/-!
# Parameters that have a canonical type

A parameter is a tree.  It has a canonical type if each of its nodes is well formed on its
own: a leaf has no components, and a tuple has array groups behind its `tuple` and at least
one component.  Its canonical type is then written down from the tree without looking at
anything else.  Otherwise the fault is that of the first node that is not well formed, where
every node comes before those below it, and those below it from left to right.
-/

namespace MintWatch
namespace Param

/-! ## Array groups -/

/-- Characters between brackets. -/
def bracketed (inner : List Char) : List Char :=
  '[' :: (inner ++ [']'])

/-- Whether characters are digits between brackets, any number of times. -/
def AreArrayGroups (chars : List Char) : Prop :=
  ∃ groups : List (List Char), (∀ digits ∈ groups, AreDigits digits) ∧
    chars = groups.flatMap bracketed

def BeginsWithGroup (chars : List Char) : Prop :=
  ∃ digits rest, AreDigits digits ∧ chars = bracketed digits ++ rest

theorem isArraySuffix_bracketed
    {digits : List Char}
    (hdigits : AreDigits digits)
    (rest : List Char) :
    isArraySuffix (bracketed digits ++ rest) = isArraySuffix rest := by
  have hopened : bracketed digits ++ rest = '[' :: (digits ++ ']' :: rest) := by
    simp [bracketed]
  rw [hopened, isArraySuffix, closesBracket_digits hdigits]

theorem isArraySuffix_groups
    {groups : List (List Char)}
    (hgroups : ∀ digits ∈ groups, AreDigits digits)
    (rest : List Char) :
    isArraySuffix (groups.flatMap bracketed ++ rest) = isArraySuffix rest := by
  induction groups with
  | nil => rfl
  | cons digits groups ih =>
      rw [List.forall_mem_cons] at hgroups
      rw [List.flatMap_cons, List.append_assoc, isArraySuffix_bracketed hgroups.1, ih hgroups.2]

theorem exists_digits_of_closesBracket
    {chars : List Char}
    (hcloses : closesBracket chars = true) :
    ∃ digits rest, AreDigits digits ∧ chars = digits ++ ']' :: rest := by
  induction chars with
  | nil => cases hcloses
  | cons c chars ih =>
      by_cases hbracket : c = ']'
      · subst hbracket
        exact ⟨[], chars, by simp [AreDigits], rfl⟩
      · rw [closesBracket.eq_3 _ _ hbracket, Bool.and_eq_true] at hcloses
        obtain ⟨digits, rest, hdigits, rfl⟩ := ih hcloses.2
        exact ⟨c :: digits, rest, List.forall_mem_cons.mpr ⟨hcloses.1, hdigits⟩, rfl⟩

theorem isArraySuffix_eq_false
    {chars : List Char}
    (hsome : chars ≠ [])
    (hstuck : ¬ BeginsWithGroup chars) :
    isArraySuffix chars = false := by
  unfold isArraySuffix
  split
  · exact absurd rfl hsome
  · by_contra hcloses
    rw [Bool.not_eq_false] at hcloses
    obtain ⟨digits, rest, hdigits, rfl⟩ := exists_digits_of_closesBracket hcloses
    exact hstuck ⟨digits, rest, hdigits, by simp [bracketed]⟩
  · rfl

/-- The groups at the front of a text, and what is left where no group begins. -/
structure SplitsAtGroups (chars : List Char) (groups : List (List Char)) (rest : List Char) :
    Prop where
  whole : chars = groups.flatMap bracketed ++ rest
  digits : ∀ inner ∈ groups, AreDigits inner
  stuck : ¬ BeginsWithGroup rest

theorem exists_splitsAtGroups
    (chars : List Char) :
    ∃ groups rest, SplitsAtGroups chars groups rest := by
  induction hlength : chars.length using Nat.strongRecOn generalizing chars with
  | ind length ih =>
      by_cases hbegins : BeginsWithGroup chars
      · obtain ⟨digits, more, hdigits, rfl⟩ := hbegins
        have hshorter : more.length < length := by
          rw [← hlength, List.length_append, bracketed, List.length_cons]
          omega
        obtain ⟨groups, rest, hsplit⟩ := ih _ hshorter more rfl
        refine ⟨digits :: groups, rest, ?_, ?_, hsplit.stuck⟩
        · rw [List.flatMap_cons, List.append_assoc, ← hsplit.whole]
        · exact List.forall_mem_cons.mpr ⟨hdigits, hsplit.digits⟩
      · exact ⟨[], chars, rfl, by simp, hbegins⟩

/-- The scan of a suffix goes over the groups at its front and accepts it if nothing is left. -/
theorem isArraySuffix_iff_of_split
    {suffix rest : List Char} {groups : List (List Char)}
    (hsplit : SplitsAtGroups suffix groups rest) :
    isArraySuffix suffix = true ↔ rest = [] := by
  rw [hsplit.whole, isArraySuffix_groups hsplit.digits]
  constructor
  · intro haccepts
    by_contra hsome
    rw [isArraySuffix_eq_false hsome hsplit.stuck] at haccepts
    cases haccepts
  · rintro rfl
    rfl

theorem isArraySuffix_iff
    {suffix : List Char} :
    isArraySuffix suffix = true ↔ AreArrayGroups suffix := by
  constructor
  · intro haccepts
    obtain ⟨groups, rest, hsplit⟩ := exists_splitsAtGroups suffix
    have hwhole := hsplit.whole
    rw [(isArraySuffix_iff_of_split hsplit).mp haccepts, List.append_nil] at hwhole
    exact ⟨groups, hsplit.digits, hwhole⟩
  · rintro ⟨groups, hgroups, rfl⟩
    have hall := isArraySuffix_groups hgroups []
    rwa [List.append_nil] at hall

/-! ## Nodes -/

def tupleWord : List Char :=
  ['t', 'u', 'p', 'l', 'e']

theorem tupleSuffix?_eq_some_iff
    {type : String} {suffix : List Char} :
    tupleSuffix? type = some suffix ↔ type.toList = tupleWord ++ suffix := by
  unfold tupleSuffix? tupleWord
  split
  · rename_i rest htype
    simp [htype]
  · rename_i hother
    simp only [reduceCtorEq, List.cons_append, List.nil_append, false_iff]
    exact hother suffix

theorem tupleSuffix?_eq_none_iff
    {type : String} :
    tupleSuffix? type = none ↔ ¬ tupleWord <+: type.toList := by
  rw [Option.eq_none_iff_forall_ne_some]
  simp only [ne_eq, tupleSuffix?_eq_some_iff, List.IsPrefix, not_exists, eq_comm]

/-- Whether a parameter, without those below it, is a leaf or a tuple. -/
inductive IsFormed (node : Param) : Prop
  | leaf
      (htype : ¬ tupleWord <+: node.type.toList)
      (hnone : node.components = []) :
      IsFormed node
  | tuple {suffix : List Char}
      (htype : node.type.toList = tupleWord ++ suffix)
      (hgroups : AreArrayGroups suffix)
      (hsome : node.components ≠ []) :
      IsFormed node

/-- What is wrong with a parameter itself; a malformed suffix is noticed before the lack of
components. -/
inductive Offends (node : Param) : ExpansionFault → Prop
  | unexpectedComponents
      (htype : ¬ tupleWord <+: node.type.toList)
      (hsome : node.components ≠ []) :
      Offends node (.unexpectedComponents node.name node.type)
  | malformedTuple {suffix : List Char}
      (htype : node.type.toList = tupleWord ++ suffix)
      (hgroups : ¬ AreArrayGroups suffix) :
      Offends node (.malformedTuple node.name node.type)
  | noComponents {suffix : List Char}
      (htype : node.type.toList = tupleWord ++ suffix)
      (hgroups : AreArrayGroups suffix)
      (hnone : node.components = []) :
      Offends node (.noComponents node.name)

theorem isFormed_or_offends
    (node : Param) :
    node.IsFormed ∨ ∃ fault, node.Offends fault := by
  by_cases htuple : tupleWord <+: node.type.toList
  · obtain ⟨suffix, htype⟩ := htuple
    by_cases hgroups : AreArrayGroups suffix
    · by_cases hnone : node.components = []
      · exact Or.inr ⟨_, .noComponents htype.symm hgroups hnone⟩
      · exact Or.inl (.tuple htype.symm hgroups hnone)
    · exact Or.inr ⟨_, .malformedTuple htype.symm hgroups⟩
  · by_cases hnone : node.components = []
    · exact Or.inl (.leaf htuple hnone)
    · exact Or.inr ⟨_, .unexpectedComponents htuple hnone⟩

theorem canonicalType_of_offends
    {node : Param} {fault : ExpansionFault}
    (hoffends : node.Offends fault) :
    node.canonicalType = .error fault := by
  obtain ⟨name, type, components⟩ := node
  cases hoffends with
  | unexpectedComponents htype hsome =>
      simp [canonicalType, tupleSuffix?_eq_none_iff.mpr htype, show components ≠ [] from hsome]
  | malformedTuple htype hgroups =>
      rw [← isArraySuffix_iff, Bool.not_eq_true] at hgroups
      simp [canonicalType, tupleSuffix?_eq_some_iff.mpr htype, hgroups]
  | noComponents htype hgroups hnone =>
      rw [← isArraySuffix_iff] at hgroups
      simp [canonicalType, tupleSuffix?_eq_some_iff.mpr htype, hgroups,
        show components = [] from hnone]

/-! ## Trees -/

mutual

/-- The nodes of a tree: each before those below it, and those from left to right. -/
def nodes : Param → List Param
  | ⟨name, type, components⟩ => ⟨name, type, components⟩ :: nodesOf components

def nodesOf : List Param → List Param
  | [] => []
  | param :: rest => nodes param ++ nodesOf rest

end

mutual

/-- The text of a tree: that of a leaf, or the texts below a tuple in parentheses and what
stands behind its `tuple`. -/
def expansion : Param → String
  | ⟨_, type, components⟩ =>
    if tupleWord <+: type.toList then
      "(" ++ String.intercalate "," (expansions components) ++ ")" ++
        String.ofList (type.toList.drop tupleWord.length)
    else type

def expansions : List Param → List String
  | [] => []
  | param :: rest => expansion param :: expansions rest

end

/-- The first of some nodes that is not well formed has this fault. -/
inductive FirstOffends : List Param → ExpansionFault → Prop
  | here {node : Param} {others : List Param} {fault : ExpansionFault}
      (hoffends : node.Offends fault) :
      FirstOffends (node :: others) fault
  | later {node : Param} {others : List Param} {fault : ExpansionFault}
      (hformed : node.IsFormed)
      (hlater : FirstOffends others fault) :
      FirstOffends (node :: others) fault

theorem forall_isFormed_or_firstOffends
    (nodes : List Param) :
    (∀ node ∈ nodes, node.IsFormed) ∨ ∃ fault, FirstOffends nodes fault := by
  induction nodes with
  | nil => simp
  | cons node others ih =>
      rcases node.isFormed_or_offends with hformed | ⟨fault, hoffends⟩
      · rcases ih with hall | ⟨fault, hlater⟩
        · exact Or.inl (List.forall_mem_cons.mpr ⟨hformed, hall⟩)
        · exact Or.inr ⟨fault, .later hformed hlater⟩
      · exact Or.inr ⟨fault, .here hoffends⟩

theorem firstOffends_append
    {first second : List Param} {fault : ExpansionFault}
    (hoffends : FirstOffends (first ++ second) fault) :
    FirstOffends first fault ∨ (∀ node ∈ first, node.IsFormed) ∧ FirstOffends second fault := by
  induction first with
  | nil => exact Or.inr ⟨by simp, hoffends⟩
  | cons node others ih =>
      cases hoffends with
      | here hoffends => exact Or.inl (.here hoffends)
      | later hformed hlater =>
          rcases ih hlater with hfirst | ⟨hall, hsecond⟩
          · exact Or.inl (.later hformed hfirst)
          · exact Or.inr ⟨List.forall_mem_cons.mpr ⟨hformed, hall⟩, hsecond⟩

/-! ## Expansion of well-formed trees -/

theorem canonicalTypes_of_forall
    {params : List Param}
    (heach : ∀ param ∈ params, (∀ node ∈ param.nodes, node.IsFormed) →
      param.canonicalType = .ok param.expansion)
    (hformed : ∀ node ∈ nodesOf params, node.IsFormed) :
    canonicalTypes params = .ok (expansions params) := by
  induction params with
  | nil => rfl
  | cons param rest ih =>
      rw [List.forall_mem_cons] at heach
      rw [nodesOf, List.forall_mem_append] at hformed
      rw [canonicalTypes, heach.1 hformed.1, expansions]
      simp only [ih heach.2 hformed.2]
      rfl

theorem canonicalType_of_forall_isFormed
    {param : Param}
    (hformed : ∀ node ∈ param.nodes, node.IsFormed) :
    param.canonicalType = .ok param.expansion := by
  induction param using paramInduction with
  | mk name type components ih =>
      rw [nodes, List.forall_mem_cons] at hformed
      cases hformed.1 with
      | leaf htype hnone =>
          rw [expansion, if_neg htype]
          exact (canonicalType_leaf_eq_ok_iff (tupleSuffix?_eq_none_iff.mpr htype)).mpr
            ⟨hnone, rfl⟩
      | @tuple suffix htype hgroups hsome =>
          have hinner := canonicalTypes_of_forall ih hformed.2
          have hbegins : tupleWord <+: type.toList := ⟨suffix, htype.symm⟩
          have hbehind : type.toList.drop tupleWord.length = suffix := by
            rw [show type.toList = tupleWord ++ suffix from htype, List.drop_left]
          rw [expansion, if_pos hbegins, hbehind]
          exact (canonicalType_tuple_eq_ok_iff (tupleSuffix?_eq_some_iff.mpr htype)).mpr
            ⟨isArraySuffix_iff.mpr hgroups, hsome, _, hinner, rfl⟩

/-! ## The first fault of other trees -/

theorem canonicalTypes_of_firstOffends
    {params : List Param} {fault : ExpansionFault}
    (heach : ∀ param ∈ params, FirstOffends param.nodes fault →
      param.canonicalType = .error fault)
    (hoffends : FirstOffends (nodesOf params) fault) :
    canonicalTypes params = .error fault := by
  induction params with
  | nil => cases hoffends
  | cons param rest ih =>
      rw [List.forall_mem_cons] at heach
      rw [nodesOf] at hoffends
      rw [canonicalTypes]
      rcases firstOffends_append hoffends with hfirst | ⟨hformed, hrest⟩
      · rw [heach.1 hfirst]
      · rw [canonicalType_of_forall_isFormed hformed]
        simp only [ih heach.2 hrest]
        rfl

theorem canonicalType_of_firstOffends
    {param : Param} {fault : ExpansionFault}
    (hoffends : FirstOffends param.nodes fault) :
    param.canonicalType = .error fault := by
  induction param using paramInduction with
  | mk name type components ih =>
      rw [nodes] at hoffends
      cases hoffends with
      | here hoffends => exact canonicalType_of_offends hoffends
      | later hformed hlater =>
          cases hformed with
          | leaf htype hnone =>
              rw [show components = [] from hnone, nodesOf] at hlater
              cases hlater
          | tuple htype hgroups hsome =>
              have hinner := canonicalTypes_of_firstOffends ih hlater
              have haccepts := isArraySuffix_iff.mpr hgroups
              simp only [canonicalType, tupleSuffix?_eq_some_iff.mpr htype, haccepts, hinner,
                List.isEmpty_iff, show components ≠ [] from hsome]
              rfl

/-- A parameter has a canonical type exactly if all nodes of its tree are well formed, and
that type is written down from the tree; otherwise the first node that is not well formed is
reported.  The scan of a suffix stops on every text, where no group begins. -/
theorem canonicalType_follows_nodes
    (param : Param) :
    (∀ text, param.canonicalType = .ok text ↔
        (∀ node ∈ param.nodes, node.IsFormed) ∧ text = param.expansion) ∧
      (∀ fault, param.canonicalType = .error fault ↔ FirstOffends param.nodes fault) ∧
      ∀ suffix, ∃ groups rest, SplitsAtGroups suffix groups rest ∧
        (isArraySuffix suffix = true ↔ rest = []) := by
  have hscan : ∀ suffix, ∃ groups rest, SplitsAtGroups suffix groups rest ∧
      (isArraySuffix suffix = true ↔ rest = []) := by
    intro suffix
    obtain ⟨groups, rest, hsplit⟩ := exists_splitsAtGroups suffix
    exact ⟨groups, rest, hsplit, isArraySuffix_iff_of_split hsplit⟩
  refine ⟨fun text => ⟨?_, ?_⟩, fun fault => ⟨?_, canonicalType_of_firstOffends⟩, hscan⟩
  · intro hok
    rcases forall_isFormed_or_firstOffends param.nodes with hformed | ⟨own, hoffends⟩
    · rw [canonicalType_of_forall_isFormed hformed] at hok
      exact ⟨hformed, (Except.ok.inj hok).symm⟩
    · rw [canonicalType_of_firstOffends hoffends] at hok
      cases hok
  · rintro ⟨hformed, rfl⟩
    exact canonicalType_of_forall_isFormed hformed
  · intro herror
    rcases forall_isFormed_or_firstOffends param.nodes with hformed | ⟨own, hoffends⟩
    · rw [canonicalType_of_forall_isFormed hformed] at herror
      cases herror
    · rw [canonicalType_of_firstOffends hoffends] at herror
      rwa [← Except.error.inj herror]

end Param
end MintWatch
