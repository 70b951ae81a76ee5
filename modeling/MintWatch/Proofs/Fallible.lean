import Mathlib
/-!
# Results that may be faults

The readers of this library return `Except`, and a reading that succeeds is a chain of
readings that succeed.  The lemmas below take such a chain apart, one link at a time,
and bound the faults of a chain by the faults of its links; they are all that later
proofs use about `Except`.
-/

namespace MintWatch

variable {ε ε' α β : Type}

theorem map_eq_ok_iff
    {result : Except ε α} {f : α → β} {value : β} :
    result.map f = .ok value ↔ ∃ first, result = .ok first ∧ f first = value := by
  cases result <;> simp [Except.map]

theorem map_eq_error_iff
    {result : Except ε α} {f : α → β} {fault : ε} :
    result.map f = .error fault ↔ result = .error fault := by
  cases result <;> simp [Except.map]

theorem bind_eq_ok_iff
    {result : Except ε α} {next : α → Except ε β} {value : β} :
    result.bind next = .ok value ↔ ∃ first, result = .ok first ∧ next first = .ok value := by
  cases result <;> simp [Except.bind]

theorem mapError_eq_ok_iff
    {result : Except ε α} {f : ε → ε'} {value : α} :
    result.mapError f = .ok value ↔ result = .ok value := by
  cases result <;> simp [Except.mapError]

theorem toOption_eq_some_iff
    {result : Except ε α} {value : α} :
    result.toOption = some value ↔ result = .ok value := by
  cases result <;> simp [Except.toOption]

/-! ## The faults of a chain -/

/-- Whether a result can be no other fault than those allowed. -/
def FailsOnly (allowed : ε → Prop) (result : Except ε α) : Prop :=
  ∀ fault, result = .error fault → allowed fault

section FailsOnly

variable {allowed : ε → Prop} {result : Except ε α}

theorem failsOnly_ok
    (value : α) :
    FailsOnly allowed (.ok value) := by
  intro fault hfailed
  cases hfailed

theorem failsOnly_error
    {fault : ε}
    (hallowed : allowed fault) :
    FailsOnly allowed (.error fault : Except ε α) := by
  intro other hfailed
  cases hfailed
  exact hallowed

theorem FailsOnly.bind
    {next : α → Except ε β}
    (hresult : FailsOnly allowed result)
    (hnext : ∀ value, result = .ok value → FailsOnly allowed (next value)) :
    FailsOnly allowed (result.bind next) := by
  cases result with
  | error fault => exact failsOnly_error (hresult fault rfl)
  | ok value => exact hnext value rfl

theorem FailsOnly.map
    (hresult : FailsOnly allowed result)
    (f : α → β) :
    FailsOnly allowed (result.map f) :=
  fun fault hfailed => hresult fault (map_eq_error_iff.mp hfailed)

theorem FailsOnly.mono
    {wider : ε → Prop}
    (hresult : FailsOnly allowed result)
    (hwider : ∀ fault, allowed fault → wider fault) :
    FailsOnly wider result :=
  fun fault hfailed => hwider fault (hresult fault hfailed)

end FailsOnly

end MintWatch
