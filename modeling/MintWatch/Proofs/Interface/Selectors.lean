import Mathlib
import MintWatch.Interface.Index
import MintWatch.Proofs.Fallible
import MintWatch.Proofs.Lists
/-!
# Selectors of indexed functions

An index that was built holds its functions under the hashes of their signatures, and
under each selector one function only, so that every function of it is found again.
Both facts are one invariant of the index, which adding a function keeps; building an
index is adding functions to the empty one.
-/

namespace MintWatch
namespace InterfaceIndex

/-- What holds of an index whose functions are kept under a hash. -/
structure IsKeyedBy (hash : String → Selector) (index : InterfaceIndex) : Prop where
  selectors : ∀ function ∈ index.functions, function.selector = hash function.signature
  distinct : index.functions.Pairwise fun first second => first.selector ≠ second.selector

variable {hash : String → Selector} {index : InterfaceIndex}

theorem isKeyedBy_empty
    (hash : String → Selector) :
    IsKeyedBy hash empty := by
  constructor
  · intro function hmember
    cases hmember
  · exact List.Pairwise.nil

theorem mem_insert_iff
    {function other : IndexedFunction} :
    other ∈ (index.insert function).functions ↔
      other = function ∨ other ∈ index.functions ∧ other.selector ≠ function.selector := by
  simp [insert]

theorem IsKeyedBy.insert
    {function : IndexedFunction}
    (hkeyed : IsKeyedBy hash index)
    (hselector : function.selector = hash function.signature) :
    IsKeyedBy hash (index.insert function) := by
  constructor
  · intro other hmember
    rcases mem_insert_iff.mp hmember with hsame | hold
    · rw [hsame, hselector]
    · exact hkeyed.selectors other hold.1
  · unfold InterfaceIndex.insert
    apply List.Pairwise.cons
    · intro other hmember
      have hdiffers := (List.mem_filter.mp hmember).2
      simp only [decide_eq_true_eq] at hdiffers
      exact hdiffers.symm
    · exact hkeyed.distinct.filter _

theorem selector_of_functionOf
    {descriptor : Descriptor} {function : IndexedFunction}
    (hfunction : functionOf hash descriptor = .ok function) :
    function.selector = hash function.signature := by
  unfold functionOf at hfunction
  split at hfunction
  · cases hfunction
  · obtain ⟨inputs, -, rfl⟩ := map_eq_ok_iff.mp hfunction
    rfl

theorem IsKeyedBy.extend
    {descriptors : List Descriptor} {built : InterfaceIndex × List IndexedFunction}
    (hkeyed : IsKeyedBy hash index)
    (hextend : extend hash index descriptors = .ok built) :
    IsKeyedBy hash built.1 := by
  induction descriptors generalizing index built with
  | nil =>
      simp only [InterfaceIndex.extend, Except.ok.injEq] at hextend
      rw [← hextend]
      exact hkeyed
  | cons descriptor rest ih =>
      unfold InterfaceIndex.extend at hextend
      split at hextend
      · -- A function is added in the place of any with its selector.
        split at hextend
        · cases hextend
        · rename_i function hfunction
          obtain ⟨later, hlater, hpair⟩ := map_eq_ok_iff.mp hextend
          have hinserted := hkeyed.insert (selector_of_functionOf hfunction)
          have hbuilt := ih hinserted hlater
          rw [← hpair]
          exact hbuilt
      · -- A constructor leaves the functions as they are.
        split at hextend
        · cases hextend
        · split at hextend
          · cases hextend
          · rename_i inputs _
            have hsame : IsKeyedBy hash { index with constructor? := some inputs } :=
              ⟨hkeyed.selectors, hkeyed.distinct⟩
            exact ih hsame hextend
      · exact ih hkeyed hextend

theorem isKeyedBy_of_buildWith
    {interface : Interface} {replaced : List IndexedFunction}
    (hbuild : buildWith hash interface = .ok (index, replaced)) :
    IsKeyedBy hash index :=
  (isKeyedBy_empty hash).extend hbuild

theorem build_function
    {name trimmed : String} {params : List Param} {inputs : List ResolvedParam}
    (hname : functionName? (.function name params) = some trimmed)
    (hinputs : ResolvedParam.ofParams params = .ok inputs) :
    build [.function name params] =
      .ok (⟨[⟨Selector.ofSignature (signatureText trimmed inputs), trimmed, inputs⟩], none⟩,
        []) := by
  have hparams : (Descriptor.function name params).inputs = params := rfl
  have hfunction :
      functionOf Selector.ofSignature (.function name params) =
        .ok ⟨Selector.ofSignature (signatureText trimmed inputs), trimmed, inputs⟩ := by
    unfold functionOf
    rw [hname, hparams, hinputs]
    rfl
  unfold build buildWith InterfaceIndex.extend
  rw [hfunction]
  rfl

theorem mem_of_lookup
    {selector : Selector} {function : IndexedFunction}
    (hlookup : index.lookup selector = some function) :
    function ∈ index.functions ∧ function.selector = selector := by
  have hfound := List.find?_some hlookup
  exact ⟨List.mem_of_find?_eq_some hlookup, by simpa using hfound⟩

theorem IsKeyedBy.lookup_selector
    {function : IndexedFunction}
    (hkeyed : IsKeyedBy hash index)
    (hmember : function ∈ index.functions) :
    index.lookup function.selector = some function :=
  (find?_key_eq_some_iff hkeyed.distinct).mpr ⟨hmember, rfl⟩

end InterfaceIndex
end MintWatch
