import Mathlib
import MintWatch.Interface.Index
import MintWatch.Proofs.Fallible
import MintWatch.Proofs.Lists
/-!
# Interfaces that can be indexed

A function has to have a name, every parameter of a function or of the constructor has to
resolve, and there is one constructor at most.  The same is said of one descriptor at a
time, which has a fault or has none among the descriptors before it; an interface is well
formed if none of its descriptors has a fault.
-/

namespace MintWatch

/-! ## Parameter lists -/

namespace ResolvedParam

theorem ofParams_eq_ok_iff
    {params : List Param} {resolved : List ResolvedParam} :
    ofParams params = .ok resolved ↔
      List.Forall₂ (fun param one => ofParam param = .ok one) params resolved := by
  apply forall₂_iff_of_cons (fun params resolved => ofParams params = .ok resolved)
  · simp [ofParams, eq_comm]
  · intro param rest resolved
    rw [ofParams]
    cases ofParam param <;> simp [map_eq_ok_iff]

/-- Whether a fault is that of the first parameter that does not resolve. -/
def IsFirstFault (params : List Param) (fault : InterfaceFault) : Prop :=
  ∃ before param after, params = before ++ param :: after ∧
    (∀ earlier ∈ before, ∃ one, ofParam earlier = .ok one) ∧ ofParam param = .error fault

theorem exists_ofParams_iff
    {params : List Param} :
    (∃ resolved, ofParams params = .ok resolved) ↔
      ∀ param ∈ params, ∃ one, ofParam param = .ok one := by
  induction params with
  | nil => simp [ofParams]
  | cons param rest ih =>
      rw [List.forall_mem_cons, ← ih, ofParams]
      cases hparam : ofParam param with
      | error fault => simp
      | ok one => simp [map_eq_ok_iff]

theorem ofParams_eq_error_iff
    {params : List Param} {fault : InterfaceFault} :
    ofParams params = .error fault ↔ IsFirstFault params fault := by
  induction params with
  | nil => simp [ofParams, IsFirstFault]
  | cons param rest ih =>
      rw [ofParams]
      constructor
      · intro hfault
        cases hparam : ofParam param with
        | error own =>
            rw [hparam] at hfault
            cases hfault
            exact ⟨[], param, rest, rfl, by simp, hparam⟩
        | ok one =>
            rw [hparam] at hfault
            obtain ⟨before, other, after, rfl, hbefore, hother⟩ :=
              ih.mp (map_eq_error_iff.mp hfault)
            exact ⟨param :: before, other, after, rfl,
              List.forall_mem_cons.mpr ⟨⟨one, hparam⟩, hbefore⟩, hother⟩
      · intro hfirst
        obtain ⟨before, other, after, hsplit, hbefore, hother⟩ := hfirst
        cases before with
        | nil =>
            obtain ⟨rfl, rfl⟩ := List.cons.inj hsplit
            rw [hother]
        | cons first before =>
            obtain ⟨rfl, rfl⟩ := List.cons.inj hsplit
            rw [List.forall_mem_cons] at hbefore
            obtain ⟨one, hone⟩ := hbefore.1
            rw [hone, ih.mpr ⟨before, other, after, rfl, hbefore.2, hother⟩]
            rfl

end ResolvedParam

/-! ## What an interface has to be -/

namespace Descriptor

def IsNamed (descriptor : Descriptor) : Prop :=
  ∃ name, descriptor.name = some name ∧ Text.trim name ≠ ""

/-- Whether a descriptor that comes after others has a fault. -/
inductive HasFault (earlier : Interface) (descriptor : Descriptor) : InterfaceFault → Prop
  | nameless
      (hkind : descriptor.kind = .function)
      (hname : ¬ descriptor.IsNamed) :
      HasFault earlier descriptor .namelessFunction
  | functionParam {fault : InterfaceFault}
      (hkind : descriptor.kind = .function)
      (hname : descriptor.IsNamed)
      (hparams : ResolvedParam.IsFirstFault descriptor.inputs fault) :
      HasFault earlier descriptor fault
  | secondConstructor
      (hkind : descriptor.kind = .constructor)
      (hearlier : ∃ other ∈ earlier, other.kind = .constructor) :
      HasFault earlier descriptor .secondConstructor
  | constructorParam {fault : InterfaceFault}
      (hkind : descriptor.kind = .constructor)
      (hearlier : ∀ other ∈ earlier, other.kind ≠ .constructor)
      (hparams : ResolvedParam.IsFirstFault descriptor.inputs fault) :
      HasFault earlier descriptor fault

theorem functionName?_eq_some_iff
    {descriptor : Descriptor} {trimmed : String} :
    InterfaceIndex.functionName? descriptor = some trimmed ↔
      ∃ name, descriptor.name = some name ∧ Text.trim name = trimmed ∧ trimmed ≠ "" := by
  unfold InterfaceIndex.functionName?
  cases descriptor.name with
  | none => simp
  | some name =>
      simp only [Option.map_some, Option.some.injEq, exists_eq_left']
      split
      · rename_i hempty
        rw [String.isEmpty_iff] at hempty
        constructor
        · intro hnone
          cases hnone
        · intro htrimmed
          exact absurd (htrimmed.1.symm.trans hempty) htrimmed.2
      · rename_i hsome
        rw [String.isEmpty_iff] at hsome
        constructor
        · intro htrimmed
          obtain rfl := Option.some.inj htrimmed
          exact ⟨rfl, hsome⟩
        · intro htrimmed
          rw [htrimmed.1]

theorem isNamed_iff_exists_functionName?
    {descriptor : Descriptor} :
    descriptor.IsNamed ↔ ∃ trimmed, InterfaceIndex.functionName? descriptor = some trimmed := by
  simp only [functionName?_eq_some_iff]
  constructor
  · intro hnamed
    obtain ⟨name, hname, hsome⟩ := hnamed
    exact ⟨Text.trim name, name, hname, rfl, hsome⟩
  · intro hnamed
    obtain ⟨trimmed, name, hname, rfl, hsome⟩ := hnamed
    exact ⟨name, hname, hsome⟩

end Descriptor

namespace Interface

/-- Whether every descriptor of an interface can be indexed, with those before it. -/
structure IsWellFormed (interface : Interface) : Prop where
  named : ∀ descriptor ∈ interface, descriptor.kind = .function → descriptor.IsNamed
  resolved : ∀ descriptor ∈ interface, descriptor.kind ≠ .other →
    ∀ param ∈ descriptor.inputs, ∃ one, ResolvedParam.ofParam param = .ok one
  constructors : (interface.filter fun descriptor => descriptor.kind = .constructor).length ≤ 1

/-- Whether a fault is that of the first descriptor that has one. -/
def IsFirstFault (interface : Interface) (fault : InterfaceFault) : Prop :=
  ∃ before descriptor after, interface = before ++ descriptor :: after ∧ IsWellFormed before ∧
    descriptor.HasFault before fault

theorem isWellFormed_nil : IsWellFormed [] := by
  constructor
  · simp
  · simp
  · simp

theorem IsWellFormed.of_append
    {interface later : Interface}
    (hformed : IsWellFormed (interface ++ later)) :
    IsWellFormed interface := by
  constructor
  · intro descriptor hmember
    exact hformed.named descriptor (List.mem_append_left later hmember)
  · intro descriptor hmember
    exact hformed.resolved descriptor (List.mem_append_left later hmember)
  · have hall := hformed.constructors
    rw [List.filter_append, List.length_append] at hall
    omega

theorem IsWellFormed.not_hasFault
    {interface : Interface} {descriptor : Descriptor} {fault : InterfaceFault}
    (hformed : IsWellFormed (interface ++ [descriptor])) :
    ¬ descriptor.HasFault interface fault := by
  have hlast : descriptor ∈ interface ++ [descriptor] :=
    List.mem_append_right interface List.mem_cons_self
  have hresolved :
      descriptor.kind ≠ .other → ¬ ResolvedParam.IsFirstFault descriptor.inputs fault := by
    intro hkind hfirst
    obtain ⟨inputs, hinputs⟩ :=
      ResolvedParam.exists_ofParams_iff.mpr (hformed.resolved descriptor hlast hkind)
    rw [ResolvedParam.ofParams_eq_error_iff.mpr hfirst] at hinputs
    cases hinputs
  intro hfault
  cases hfault with
  | nameless hkind hname => exact hname (hformed.named descriptor hlast hkind)
  | functionParam hkind hname hparams => exact hresolved (by simp [hkind]) hparams
  | secondConstructor hkind hearlier =>
      obtain ⟨other, hmember, hother⟩ := hearlier
      have hsome : 0 < (interface.filter fun one => one.kind = .constructor).length :=
        List.length_pos_of_mem (List.mem_filter.mpr ⟨hmember, by simpa using hother⟩)
      have hall := hformed.constructors
      rw [List.filter_append, List.length_append, List.filter_cons_of_pos (by simpa using hkind),
        List.length_cons] at hall
      omega
  | constructorParam hkind hearlier hparams => exact hresolved (by simp [hkind]) hparams

theorem IsWellFormed.append_singleton
    {interface : Interface} {descriptor : Descriptor}
    (hformed : IsWellFormed interface)
    (hfault : ∀ fault, ¬ descriptor.HasFault interface fault) :
    IsWellFormed (interface ++ [descriptor]) := by
  have hnamed : descriptor.kind = .function → descriptor.IsNamed := by
    intro hkind
    by_contra hname
    exact hfault _ (.nameless hkind hname)
  have hfirst :
      descriptor.kind = .constructor → ∀ other ∈ interface, other.kind ≠ .constructor := by
    intro hkind other hmember hother
    exact hfault _ (.secondConstructor hkind ⟨other, hmember, hother⟩)
  have hresolved : descriptor.kind ≠ .other →
      ∀ param ∈ descriptor.inputs, ∃ one, ResolvedParam.ofParam param = .ok one := by
    intro hkind
    rw [← ResolvedParam.exists_ofParams_iff]
    cases hinputs : ResolvedParam.ofParams descriptor.inputs with
    | ok inputs => exact ⟨inputs, rfl⟩
    | error fault =>
        have hparams := ResolvedParam.ofParams_eq_error_iff.mp hinputs
        cases hkind' : descriptor.kind with
        | function => exact absurd (.functionParam hkind' (hnamed hkind') hparams) (hfault fault)
        | constructor =>
            exact absurd (.constructorParam hkind' (hfirst hkind') hparams) (hfault fault)
        | other => exact absurd hkind' hkind
  constructor
  · intro other hmember
    rcases List.mem_append.mp hmember with hearlier | hlast
    · exact hformed.named other hearlier
    · rw [List.mem_singleton.mp hlast]
      exact hnamed
  · intro other hmember
    rcases List.mem_append.mp hmember with hearlier | hlast
    · exact hformed.resolved other hearlier
    · rw [List.mem_singleton.mp hlast]
      exact hresolved
  · rw [List.filter_append, List.length_append]
    by_cases hkind : descriptor.kind = .constructor
    · have hnone : (interface.filter fun one => one.kind = .constructor) = [] := by
        rw [List.filter_eq_nil_iff]
        intro other hmember
        simpa using hfirst hkind other hmember
      rw [hnone, List.filter_cons_of_pos (by simpa using hkind)]
      simp
    · rw [List.filter_cons_of_neg (by simpa using hkind)]
      simpa using hformed.constructors

end Interface

end MintWatch
