import Mathlib
import MintWatch.Proofs.Interface.Selectors
import MintWatch.Proofs.Interface.WellFormed
/-!
# What an index holds

Building an index goes through the descriptors of an interface one by one.  What one more
descriptor does to an index is said once, and from it follows, by induction on the
interface from its end, what the whole build gives: it fails at the first descriptor that
has a fault, and otherwise the index finds under each selector the last function that has
it.  The hash is arbitrary.
-/

namespace MintWatch

namespace InterfaceIndex

variable {hash : String → Selector} {index : InterfaceIndex} {interface : Interface}
  {descriptor : Descriptor} {replaced : List IndexedFunction}

/-! ## One more descriptor -/

theorem functionOf_eq_ok_iff
    {function : IndexedFunction} :
    functionOf hash descriptor = .ok function ↔
      ∃ name inputs, functionName? descriptor = some name ∧
        ResolvedParam.ofParams descriptor.inputs = .ok inputs ∧
        function = ⟨hash (signatureText name inputs), name, inputs⟩ := by
  unfold functionOf
  cases functionName? descriptor with
  | none => simp
  | some name =>
      simp only [map_eq_ok_iff, Option.some.injEq, exists_and_left, exists_eq_left']
      simp only [eq_comm]

theorem functionOf_eq_error_iff
    {fault : InterfaceFault} :
    functionOf hash descriptor = .error fault ↔
      ¬ descriptor.IsNamed ∧ fault = .namelessFunction ∨
        descriptor.IsNamed ∧ ResolvedParam.IsFirstFault descriptor.inputs fault := by
  rw [Descriptor.isNamed_iff_exists_functionName?]
  unfold functionOf
  cases functionName? descriptor with
  | none => simp [eq_comm]
  | some name => simp [map_eq_error_iff, ResolvedParam.ofParams_eq_error_iff]

theorem extend_append
    (index : InterfaceIndex) (descriptors later : List Descriptor) :
    extend hash index (descriptors ++ later) =
      (extend hash index descriptors).bind fun built =>
        (extend hash built.1 later).map fun next => (next.1, built.2 ++ next.2) := by
  induction descriptors generalizing index with
  | nil =>
      rw [List.nil_append, extend]
      cases hlater : extend hash index later <;> simp [Except.bind, Except.map, hlater]
  | cons descriptor rest ih =>
      rw [List.cons_append, extend, extend]
      cases descriptor.kind with
      | function =>
          cases functionOf hash descriptor with
          | error fault => rfl
          | ok function =>
              dsimp only
              rw [ih]
              cases extend hash (index.insert function) rest with
              | error fault => rfl
              | ok built =>
                  cases hlater : extend hash built.1 later <;>
                    simp [Except.bind, Except.map, hlater]
      | constructor =>
          dsimp only
          split
          · rfl
          · cases ResolvedParam.ofParams descriptor.inputs with
            | error fault => rfl
            | ok inputs => exact ih _
      | other => exact ih index

/-- What a descriptor makes of an index that takes it, and which function it replaces. -/
inductive Adds (hash : String → Selector) (index : InterfaceIndex) (descriptor : Descriptor) :
    InterfaceIndex → List IndexedFunction → Prop
  | function {function : IndexedFunction}
      (hkind : descriptor.kind = .function)
      (hfunction : functionOf hash descriptor = .ok function) :
      Adds hash index descriptor (index.insert function) (index.lookup function.selector).toList
  | constructor {inputs : List ResolvedParam}
      (hkind : descriptor.kind = .constructor)
      (hfirst : index.constructor? = none)
      (hinputs : ResolvedParam.ofParams descriptor.inputs = .ok inputs) :
      Adds hash index descriptor { index with constructor? := some inputs } []
  | other
      (hkind : descriptor.kind = .other) :
      Adds hash index descriptor index []

theorem adds_of_extend
    {next : InterfaceIndex}
    (hextend : extend hash index [descriptor] = .ok (next, replaced)) :
    Adds hash index descriptor next replaced := by
  rw [extend] at hextend
  split at hextend
  · rename_i hkind
    split at hextend
    · cases hextend
    · rename_i function hfunction
      simp only [extend, Except.map, Except.ok.injEq, Prod.mk.injEq, List.append_nil] at hextend
      rw [← hextend.1, ← hextend.2]
      exact .function hkind hfunction
  · rename_i hkind
    split at hextend
    · cases hextend
    · rename_i hfirst
      split at hextend
      · cases hextend
      · rename_i inputs hinputs
        simp only [extend, Except.ok.injEq, Prod.mk.injEq] at hextend
        rw [← hextend.1, ← hextend.2]
        exact .constructor hkind (by simpa using hfirst) hinputs
  · rename_i hkind
    simp only [extend, Except.ok.injEq, Prod.mk.injEq] at hextend
    rw [← hextend.1, ← hextend.2]
    exact .other hkind

theorem extend_singleton_eq_error_iff
    {fault : InterfaceFault}
    (hconstructor : index.constructor? = none ↔ ∀ other ∈ interface, other.kind ≠ .constructor) :
    extend hash index [descriptor] = .error fault ↔ descriptor.HasFault interface fault := by
  rw [extend]
  constructor
  · intro hfault
    split at hfault
    · rename_i hkind
      split at hfault
      · rename_i own hown
        obtain rfl := Except.error.inj hfault
        rcases functionOf_eq_error_iff.mp hown with ⟨hname, rfl⟩ | ⟨hname, hparams⟩
        · exact .nameless hkind hname
        · exact .functionParam hkind hname hparams
      · cases hfault
    · rename_i hkind
      split at hfault
      · rename_i hsome
        obtain rfl := Except.error.inj hfault
        have hearlier : ¬ ∀ other ∈ interface, other.kind ≠ .constructor := by
          rw [← hconstructor]
          intro hnone
          rw [hnone] at hsome
          cases hsome
        exact .secondConstructor hkind (by simpa using hearlier)
      · rename_i hnone
        split at hfault
        · rename_i own hown
          obtain rfl := Except.error.inj hfault
          exact .constructorParam hkind (hconstructor.mp (by simpa using hnone))
            (ResolvedParam.ofParams_eq_error_iff.mp hown)
        · cases hfault
    · cases hfault
  · intro hfault
    cases hfault with
    | nameless hkind hname =>
        rw [hkind]
        dsimp only
        rw [functionOf_eq_error_iff.mpr (Or.inl ⟨hname, rfl⟩)]
    | functionParam hkind hname hparams =>
        rw [hkind]
        dsimp only
        rw [functionOf_eq_error_iff.mpr (Or.inr ⟨hname, hparams⟩)]
    | secondConstructor hkind hearlier =>
        rw [hkind]
        dsimp only
        rw [if_pos]
        by_contra hnone
        obtain ⟨other, hmember, hother⟩ := hearlier
        exact hconstructor.mp (by simpa using hnone) other hmember hother
    | constructorParam hkind hearlier hparams =>
        rw [hkind]
        dsimp only
        rw [hconstructor.mpr hearlier, if_neg (by simp),
          ResolvedParam.ofParams_eq_error_iff.mpr hparams]

/-! ## What the index holds after an interface -/

/-- The functions that an interface declares, in its order, each as it is indexed. -/
def declaredFunctions (hash : String → Selector) (interface : Interface) : List IndexedFunction :=
  interface.filterMap fun descriptor =>
    if descriptor.kind = .function then (functionOf hash descriptor).toOption else none

/-- What an index and the functions that were replaced in it have to do with an interface. -/
structure IsIndexOf (hash : String → Selector) (interface : Interface) (index : InterfaceIndex)
    (replaced : List IndexedFunction) : Prop where
  keyed : index.IsKeyedBy hash
  lookup : ∀ selector, index.lookup selector =
    ((declaredFunctions hash interface).filter fun function =>
      hash function.signature = selector).getLast?
  constructor : ∀ descriptor ∈ interface, descriptor.kind = .constructor →
    ∃ inputs, ResolvedParam.ofParams descriptor.inputs = .ok inputs ∧
      index.constructor? = some inputs
  noConstructor : (∀ descriptor ∈ interface, descriptor.kind ≠ .constructor) →
    index.constructor? = none
  warnings : replaced.length + index.size =
    (interface.filter fun descriptor => descriptor.kind = .function).length

theorem declaredFunctions_append_function
    {function : IndexedFunction}
    (hkind : descriptor.kind = .function)
    (hfunction : functionOf hash descriptor = .ok function) :
    declaredFunctions hash (interface ++ [descriptor]) =
      declaredFunctions hash interface ++ [function] := by
  unfold declaredFunctions
  rw [List.filterMap_append]
  simp [hkind, hfunction, Except.toOption]

theorem declaredFunctions_append_of_ne
    (hkind : descriptor.kind ≠ .function) :
    declaredFunctions hash (interface ++ [descriptor]) = declaredFunctions hash interface := by
  unfold declaredFunctions
  rw [List.filterMap_append]
  simp [hkind]

theorem lookup_insert
    (index : InterfaceIndex) (function : IndexedFunction) (selector : Selector) :
    (index.insert function).lookup selector =
      if function.selector = selector then some function else index.lookup selector := by
  unfold lookup insert
  by_cases hsame : function.selector = selector
  · rw [List.find?_cons_of_pos (by simpa using hsame), if_pos hsame]
  · rw [List.find?_cons_of_neg (by simpa using hsame), if_neg hsame, List.find?_filter]
    congr 1
    funext other
    by_cases hother : other.selector = selector
    · simp [hother, Ne.symm hsame]
    · simp [hother]

theorem size_insert
    (hkeyed : index.IsKeyedBy hash)
    (function : IndexedFunction) :
    (index.insert function).size + (index.lookup function.selector).toList.length =
      index.size + 1 := by
  have hfilter := length_filter_key_ne hkeyed.distinct
    function.selector
  unfold size insert lookup
  rw [List.length_cons]
  omega

theorem isIndexOf_empty
    (hash : String → Selector) :
    IsIndexOf hash [] empty [] := by
  constructor
  · exact isKeyedBy_empty hash
  · intro selector
    rfl
  · simp
  · intro _
    rfl
  · rfl

theorem IsIndexOf.constructor?_eq_none_iff
    (hindex : IsIndexOf hash interface index replaced) :
    index.constructor? = none ↔ ∀ descriptor ∈ interface, descriptor.kind ≠ .constructor := by
  constructor
  · intro hnone descriptor hmember hkind
    obtain ⟨inputs, -, hsome⟩ := hindex.constructor descriptor hmember hkind
    rw [hnone] at hsome
    cases hsome
  · exact hindex.noConstructor

theorem IsIndexOf.insert
    {function : IndexedFunction}
    (hindex : IsIndexOf hash interface index replaced)
    (hkind : descriptor.kind = .function)
    (hfunction : functionOf hash descriptor = .ok function) :
    IsIndexOf hash (interface ++ [descriptor]) (index.insert function)
      (replaced ++ (index.lookup function.selector).toList) := by
  have hselector := selector_of_functionOf hfunction
  constructor
  · exact hindex.keyed.insert hselector
  · intro selector
    rw [lookup_insert, hindex.lookup, declaredFunctions_append_function hkind hfunction,
      List.filter_append, hselector]
    by_cases hsame : hash function.signature = selector
    · rw [if_pos hsame, List.filter_cons_of_pos (by simpa using hsame), List.filter_nil,
        List.getLast?_concat]
    · rw [if_neg hsame, List.filter_cons_of_neg (by simpa using hsame), List.filter_nil,
        List.append_nil]
  · intro other hmember hother
    rcases List.mem_append.mp hmember with hearlier | hlast
    · exact hindex.constructor other hearlier hother
    · rw [List.mem_singleton.mp hlast, hkind] at hother
      cases hother
  · intro hnone
    exact hindex.noConstructor fun other hmember =>
      hnone other (List.mem_append_left [descriptor] hmember)
  · have hsize := size_insert hindex.keyed function
    have hwarnings := hindex.warnings
    rw [List.filter_append, List.filter_cons_of_pos (by simpa using hkind), List.length_append,
      List.length_append, List.length_cons, List.filter_nil, List.length_nil]
    omega

theorem IsIndexOf.setConstructor
    {inputs : List ResolvedParam}
    (hindex : IsIndexOf hash interface index replaced)
    (hkind : descriptor.kind = .constructor)
    (hfirst : index.constructor? = none)
    (hinputs : ResolvedParam.ofParams descriptor.inputs = .ok inputs) :
    IsIndexOf hash (interface ++ [descriptor]) { index with constructor? := some inputs }
      replaced := by
  have hfunction : descriptor.kind ≠ .function := by simp [hkind]
  constructor
  · exact ⟨hindex.keyed.selectors, hindex.keyed.distinct⟩
  · rw [declaredFunctions_append_of_ne hfunction]
    exact hindex.lookup
  · intro other hmember hother
    rcases List.mem_append.mp hmember with hearlier | hlast
    · exact absurd hother (hindex.constructor?_eq_none_iff.mp hfirst other hearlier)
    · rw [List.mem_singleton.mp hlast]
      exact ⟨inputs, hinputs, rfl⟩
  · intro hnone
    exact absurd hkind (hnone descriptor (List.mem_append_right interface List.mem_cons_self))
  · rw [List.filter_append, List.filter_cons_of_neg (by simpa using hfunction), List.filter_nil,
      List.append_nil]
    exact hindex.warnings

theorem IsIndexOf.skip
    (hindex : IsIndexOf hash interface index replaced)
    (hkind : descriptor.kind = .other) :
    IsIndexOf hash (interface ++ [descriptor]) index replaced := by
  have hfunction : descriptor.kind ≠ .function := by simp [hkind]
  constructor
  · exact hindex.keyed
  · rw [declaredFunctions_append_of_ne hfunction]
    exact hindex.lookup
  · intro other hmember hother
    rcases List.mem_append.mp hmember with hearlier | hlast
    · exact hindex.constructor other hearlier hother
    · rw [List.mem_singleton.mp hlast, hkind] at hother
      cases hother
  · intro hnone
    exact hindex.noConstructor fun other hmember =>
      hnone other (List.mem_append_left [descriptor] hmember)
  · rw [List.filter_append, List.filter_cons_of_neg (by simpa using hfunction), List.filter_nil,
      List.append_nil]
    exact hindex.warnings

theorem IsIndexOf.add
    {next : InterfaceIndex} {more : List IndexedFunction}
    (hindex : IsIndexOf hash interface index replaced)
    (hadds : Adds hash index descriptor next more) :
    IsIndexOf hash (interface ++ [descriptor]) next (replaced ++ more) := by
  cases hadds with
  | function hkind hfunction => exact hindex.insert hkind hfunction
  | constructor hkind hfirst hinputs =>
      rw [List.append_nil]
      exact hindex.setConstructor hkind hfirst hinputs
  | other hkind =>
      rw [List.append_nil]
      exact hindex.skip hkind

theorem buildWith_append_singleton
    (hash : String → Selector) (interface : Interface) (descriptor : Descriptor) :
    buildWith hash (interface ++ [descriptor]) =
      (buildWith hash interface).bind fun built =>
        (extend hash built.1 [descriptor]).map fun next => (next.1, built.2 ++ next.2) :=
  extend_append empty interface [descriptor]

/-- The index that is built has to do with the interface what it should. -/
theorem isIndexOf_of_buildWith
    (hbuild : buildWith hash interface = .ok (index, replaced)) :
    Interface.IsWellFormed interface ∧ IsIndexOf hash interface index replaced := by
  induction interface using List.reverseRecOn generalizing index replaced with
  | nil =>
      simp only [buildWith, extend, Except.ok.injEq, Prod.mk.injEq] at hbuild
      rw [← hbuild.1, ← hbuild.2]
      exact ⟨Interface.isWellFormed_nil, isIndexOf_empty hash⟩
  | append_singleton earlier descriptor ih =>
      rw [buildWith_append_singleton, bind_eq_ok_iff] at hbuild
      obtain ⟨⟨sofar, dropped⟩, hearlier, hlast⟩ := hbuild
      obtain ⟨⟨next, more⟩, hextend, hpair⟩ := map_eq_ok_iff.mp hlast
      simp only [Prod.mk.injEq] at hpair
      obtain ⟨hformed, hindex⟩ := ih hearlier
      have hfault : ∀ fault, ¬ descriptor.HasFault earlier fault := by
        intro fault hfault
        rw [(extend_singleton_eq_error_iff hindex.constructor?_eq_none_iff).mpr hfault] at hextend
        cases hextend
      rw [← hpair.1, ← hpair.2]
      exact ⟨hformed.append_singleton hfault, hindex.add (adds_of_extend hextend)⟩

theorem isFirstFault_of_buildWith
    {fault : InterfaceFault}
    (hbuild : buildWith hash interface = .error fault) :
    Interface.IsFirstFault interface fault := by
  induction interface using List.reverseRecOn with
  | nil => cases hbuild
  | append_singleton earlier descriptor ih =>
      rw [buildWith_append_singleton] at hbuild
      cases hearlier : buildWith hash earlier with
      | error own =>
          rw [hearlier] at hbuild
          obtain rfl := Except.error.inj hbuild
          obtain ⟨before, first, after, rfl, hformed, hfault⟩ := ih hearlier
          exact ⟨before, first, after ++ [descriptor], by simp, hformed, hfault⟩
      | ok built =>
          rw [hearlier] at hbuild
          obtain ⟨hformed, hindex⟩ := isIndexOf_of_buildWith hearlier
          have hlast := map_eq_error_iff.mp hbuild
          exact ⟨earlier, descriptor, [], rfl, hformed,
            (extend_singleton_eq_error_iff hindex.constructor?_eq_none_iff).mp hlast⟩

theorem exists_buildWith_of_isWellFormed
    (hash : String → Selector)
    (hformed : Interface.IsWellFormed interface) :
    ∃ built, buildWith hash interface = .ok built := by
  cases hbuild : buildWith hash interface with
  | ok built => exact ⟨built, rfl⟩
  | error fault =>
      obtain ⟨before, descriptor, after, rfl, -, hfault⟩ := isFirstFault_of_buildWith hbuild
      have hsplit : Interface.IsWellFormed ((before ++ [descriptor]) ++ after) := by
        simpa using hformed
      exact absurd hfault hsplit.of_append.not_hasFault

theorem buildWith_eq_error_of_isFirstFault
    {fault : InterfaceFault}
    (hash : String → Selector)
    (hfirst : Interface.IsFirstFault interface fault) :
    buildWith hash interface = .error fault := by
  obtain ⟨before, descriptor, after, rfl, hformed, hfault⟩ := hfirst
  obtain ⟨⟨index, replaced⟩, hbefore⟩ := exists_buildWith_of_isWellFormed hash hformed
  have hindex := (isIndexOf_of_buildWith hbefore).2
  have hextend : extend hash index [descriptor] = .error fault :=
    (extend_singleton_eq_error_iff hindex.constructor?_eq_none_iff).mpr hfault
  have hlast : buildWith hash (before ++ [descriptor]) = .error fault := by
    rw [buildWith_append_singleton, hbefore]
    exact map_eq_error_iff.mpr hextend
  calc
    buildWith hash (before ++ descriptor :: after) =
        buildWith hash ((before ++ [descriptor]) ++ after) := by simp
    _ = (buildWith hash (before ++ [descriptor])).bind _ := extend_append empty _ after
    _ = .error fault := by rw [hlast]; rfl

theorem exists_functionOf_of_isWellFormed
    (hash : String → Selector)
    (hformed : Interface.IsWellFormed interface)
    (hmember : descriptor ∈ interface)
    (hkind : descriptor.kind = .function) :
    ∃ function, functionOf hash descriptor = .ok function := by
  obtain ⟨name, hname⟩ :=
    Descriptor.isNamed_iff_exists_functionName?.mp (hformed.named descriptor hmember hkind)
  obtain ⟨inputs, hinputs⟩ :=
    ResolvedParam.exists_ofParams_iff.mpr (hformed.resolved descriptor hmember (by simp [hkind]))
  exact ⟨_, functionOf_eq_ok_iff.mpr ⟨name, inputs, hname, hinputs, rfl⟩⟩

theorem IsIndexOf.lookup_declared
    {before after : Interface} {function : IndexedFunction}
    (hindex : IsIndexOf hash (before ++ descriptor :: after) index replaced)
    (hkind : descriptor.kind = .function)
    (hfunction : functionOf hash descriptor = .ok function) :
    index.lookup function.selector =
      some (((declaredFunctions hash after).filter fun later =>
        hash later.signature = function.selector).getLast?.getD function) := by
  have hdeclared : declaredFunctions hash (before ++ descriptor :: after) =
      declaredFunctions hash before ++ function :: declaredFunctions hash after := by
    unfold declaredFunctions
    rw [List.filterMap_append, List.filterMap_cons_some]
    simp [hkind, hfunction, Except.toOption]
  have hselector : hash function.signature = function.selector :=
    (selector_of_functionOf hfunction).symm
  rw [hindex.lookup, hdeclared, List.filter_append,
    List.filter_cons_of_pos (by simpa using hselector), List.getLast?_append, List.getLast?_cons]
  rfl

/-! ## Its size, and descriptors of other kinds -/

theorem IsIndexOf.mem_selectors_iff
    (hindex : IsIndexOf hash interface index replaced)
    (selector : Selector) :
    selector ∈ index.functions.map IndexedFunction.selector ↔
      selector ∈ (declaredFunctions hash interface).map fun function =>
        hash function.signature := by
  calc
    selector ∈ index.functions.map IndexedFunction.selector ↔
        (index.lookup selector).isSome := by
      unfold InterfaceIndex.lookup
      rw [List.mem_map, List.find?_isSome]
      simp
    _ ↔ (((declaredFunctions hash interface).filter fun function =>
          hash function.signature = selector).getLast?).isSome := by
      rw [hindex.lookup]
    _ ↔ _ := by
      rw [List.getLast?_isSome, List.mem_map, Ne, List.filter_eq_nil_iff]
      simp

theorem IsIndexOf.size_eq
    (hindex : IsIndexOf hash interface index replaced) :
    index.size =
      ((declaredFunctions hash interface).map fun function =>
        hash function.signature).dedup.length := by
  have hdistinct : (index.functions.map IndexedFunction.selector).Nodup :=
    List.pairwise_map.mpr hindex.keyed.distinct
  have hsame : (index.functions.map IndexedFunction.selector).Perm
      ((declaredFunctions hash interface).map fun function => hash function.signature).dedup := by
    rw [List.perm_ext_iff_of_nodup hdistinct (List.nodup_dedup _)]
    intro selector
    rw [List.mem_dedup]
    exact hindex.mem_selectors_iff selector
  rw [← hsame.length_eq, List.length_map]
  rfl

theorem extend_filter_other
    (index : InterfaceIndex) (descriptors : List Descriptor) :
    extend hash index (descriptors.filter fun descriptor => descriptor.kind ≠ .other) =
      extend hash index descriptors := by
  induction descriptors generalizing index with
  | nil => rfl
  | cons descriptor rest ih =>
      by_cases hkind : descriptor.kind = .other
      · rw [List.filter_cons_of_neg (by simpa using hkind), ih, extend, hkind]
      · rw [List.filter_cons_of_pos (by simpa using hkind), extend, extend]
        simp only [ih]

theorem buildWith_is_exact
    (hash : String → Selector) (interface : Interface) :
    ((∃ built, buildWith hash interface = .ok built) ↔ Interface.IsWellFormed interface) ∧
      (∀ fault, buildWith hash interface = .error fault ↔
        Interface.IsFirstFault interface fault) ∧
      (∀ index replaced, buildWith hash interface = .ok (index, replaced) →
        IsIndexOf hash interface index replaced ∧
          index.size = ((declaredFunctions hash interface).map fun function =>
            hash function.signature).dedup.length) ∧
      (∀ other : Interface,
        (other.filter fun descriptor => descriptor.kind ≠ .other) =
            (interface.filter fun descriptor => descriptor.kind ≠ .other) →
          buildWith hash other = buildWith hash interface) := by
  refine ⟨⟨?_, exists_buildWith_of_isWellFormed hash⟩, ?_, ?_, ?_⟩
  · intro hbuilt
    obtain ⟨⟨index, replaced⟩, hbuild⟩ := hbuilt
    exact (isIndexOf_of_buildWith hbuild).1
  · intro fault
    exact ⟨isFirstFault_of_buildWith, buildWith_eq_error_of_isFirstFault hash⟩
  · intro index replaced hbuild
    have hindex := (isIndexOf_of_buildWith hbuild).2
    exact ⟨hindex, hindex.size_eq⟩
  · intro other hsame
    unfold buildWith
    rw [← extend_filter_other, hsame, extend_filter_other]

end InterfaceIndex
end MintWatch
