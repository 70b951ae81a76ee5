import Mathlib
import MintWatch.Bytes.Octets
/-!
# Big-endian numbers

Writing a number as bytes and reading bytes as a number are inverse to each other on
strings of a fixed length.  A byte string is cut into a front and a back, and what the
front is made of says how large the whole number is: a front of zeros keeps it below
the range of the back, a front of ones keeps it within that range of the top.
-/

namespace MintWatch

theorem bigEndian_foldl
    (bytes : Bytes) (start : Nat) :
    bytes.foldl (fun total byte => total * 256 + byte.toNat) start =
      start * 256 ^ bytes.length + bigEndian bytes := by
  unfold bigEndian
  induction bytes generalizing start with
  | nil => simp
  | cons byte rest ih =>
      simp only [List.foldl_cons, List.length_cons]
      rw [ih (start * 256 + byte.toNat), ih (0 * 256 + byte.toNat)]
      ring

@[simp] theorem bigEndian_nil : bigEndian [] = 0 := rfl

theorem bigEndian_append
    (front back : Bytes) :
    bigEndian (front ++ back) = bigEndian front * 256 ^ back.length + bigEndian back := by
  rw [← bigEndian_foldl back (bigEndian front)]
  simp [bigEndian, List.foldl_append]

theorem bigEndian_cons
    (byte : UInt8) (rest : Bytes) :
    bigEndian (byte :: rest) = byte.toNat * 256 ^ rest.length + bigEndian rest := by
  have happend := bigEndian_append [byte] rest
  simpa [bigEndian] using happend

theorem bigEndian_lt
    (bytes : Bytes) :
    bigEndian bytes < 256 ^ bytes.length := by
  induction bytes with
  | nil => simp
  | cons byte rest ih =>
      have hbyte : byte.toNat ≤ 255 := by
        have hlt := byte.toNat_lt
        omega
      rw [bigEndian_cons, List.length_cons]
      calc
        byte.toNat * 256 ^ rest.length + bigEndian rest
            < byte.toNat * 256 ^ rest.length + 256 ^ rest.length := by omega
        _ = (byte.toNat + 1) * 256 ^ rest.length := by ring
        _ ≤ 256 * 256 ^ rest.length := Nat.mul_le_mul_right _ (by omega)
        _ = 256 ^ (rest.length + 1) := by ring

theorem bigEndian_bigEndianBytes
    (count number : Nat) :
    bigEndian (bigEndianBytes count number) = number % 256 ^ count := by
  induction count generalizing number with
  | zero => simp [bigEndianBytes, Nat.mod_one]
  | succ count ih =>
      rw [bigEndianBytes, bigEndian_append, ih]
      have hbyte : bigEndian [UInt8.ofNat number] = number % 256 := by
        simp [bigEndian]
      rw [hbyte, List.length_singleton, pow_one, Nat.pow_succ', Nat.mod_mul]
      ring

theorem bigEndian_injective
    {first second : Bytes}
    (hlength : first.length = second.length)
    (hsame : bigEndian first = bigEndian second) :
    first = second := by
  induction first generalizing second with
  | nil =>
      cases second with
      | nil => rfl
      | cons byte rest => simp at hlength
  | cons byte rest ih =>
      cases second with
      | nil => simp at hlength
      | cons other others =>
          have hrest : rest.length = others.length := by simpa using hlength
          rw [bigEndian_cons, bigEndian_cons, hrest] at hsame
          have hlow := bigEndian_lt rest
          have hlow' := bigEndian_lt others
          rw [hrest] at hlow
          have hhigh : byte.toNat = other.toNat := by
            have hdiv := congrArg (· / 256 ^ others.length) hsame
            simpa [Nat.mul_comm _ (256 ^ others.length), Nat.mul_add_div,
              Nat.div_eq_of_lt hlow, Nat.div_eq_of_lt hlow'] using hdiv
          rw [hhigh] at hsame
          rw [UInt8.toNat_inj.mp hhigh, ih hrest (by omega)]

theorem bigEndianBytes_bigEndian
    {count : Nat} {bytes : Bytes}
    (hlength : bytes.length = count) :
    bigEndianBytes count (bigEndian bytes) = bytes := by
  apply bigEndian_injective
  · rw [length_bigEndianBytes, hlength]
  · rw [bigEndian_bigEndianBytes, ← hlength]
    exact Nat.mod_eq_of_lt (bigEndian_lt bytes)

/-! ## Fronts of zeros and of ones -/

theorem bigEndian_take_drop
    {bytes : Bytes} {front back : Nat}
    (hlength : bytes.length = front + back) :
    bigEndian bytes =
      bigEndian (bytes.take front) * 256 ^ back + bigEndian (bytes.drop front) := by
  have hback : (bytes.drop front).length = back := by
    rw [List.length_drop]
    omega
  conv_lhs => rw [← List.take_append_drop front bytes, bigEndian_append, hback]

theorem bigEndian_drop_lt
    {bytes : Bytes} {front back : Nat}
    (hlength : bytes.length = front + back) :
    bigEndian (bytes.drop front) < 256 ^ back := by
  have hback : (bytes.drop front).length = back := by
    rw [List.length_drop]
    omega
  exact hback ▸ bigEndian_lt (bytes.drop front)

theorem all_zero_iff_bigEndian
    (bytes : Bytes) :
    (bytes.all (· == 0)) = true ↔ bigEndian bytes = 0 := by
  induction bytes with
  | nil => simp
  | cons byte rest ih =>
      have hpos : 0 < 256 ^ rest.length := Nat.pow_pos (by decide)
      have hbyte : byte = 0 ↔ byte.toNat = 0 := by
        simpa using (UInt8.toNat_inj (a := byte) (b := 0)).symm
      rw [bigEndian_cons, List.all_cons, Bool.and_eq_true, ih, beq_iff_eq, hbyte]
      constructor
      · rintro ⟨hfirst, hrest⟩
        simp [hfirst, hrest]
      · intro hsum
        have hproduct : byte.toNat * 256 ^ rest.length = 0 := by omega
        rcases Nat.mul_eq_zero.mp hproduct with hfirst | hpower
        · exact ⟨hfirst, by omega⟩
        · omega

theorem all_ones_iff_bigEndian
    (bytes : Bytes) :
    (bytes.all (· == 0xFF)) = true ↔ bigEndian bytes + 1 = 256 ^ bytes.length := by
  induction bytes with
  | nil => simp
  | cons byte rest ih =>
      have hlow := bigEndian_lt rest
      have hlt := byte.toNat_lt
      have hbyte : byte = 0xFF ↔ byte.toNat = 255 := by
        simpa using (UInt8.toNat_inj (a := byte) (b := 0xFF)).symm
      rw [bigEndian_cons, List.all_cons, Bool.and_eq_true, ih, beq_iff_eq, hbyte,
        List.length_cons, Nat.pow_succ']
      constructor
      · rintro ⟨hfirst, hrest⟩
        rw [hfirst]
        omega
      · intro hsum
        have hfirst : byte.toNat = 255 := by
          by_contra hsmall
          have hle : byte.toNat ≤ 254 := by omega
          have hproduct := Nat.mul_le_mul_right (256 ^ rest.length) hle
          omega
        rw [hfirst] at hsum
        exact ⟨hfirst, by omega⟩

theorem zeros_front_iff
    {bytes : Bytes} {front back : Nat}
    (hlength : bytes.length = front + back) :
    ((bytes.take front).all (· == 0)) = true ↔ bigEndian bytes < 256 ^ back := by
  have hlow := bigEndian_drop_lt hlength
  rw [all_zero_iff_bigEndian, bigEndian_take_drop hlength]
  constructor
  · intro hzero
    rw [hzero]
    omega
  · intro hlt
    by_contra hpos
    have hone : 1 ≤ bigEndian (bytes.take front) := by omega
    have hproduct := Nat.mul_le_mul_right (256 ^ back) hone
    omega

theorem bigEndian_drop_of_lt
    {bytes : Bytes} {front back : Nat}
    (hlength : bytes.length = front + back)
    (hlt : bigEndian bytes < 256 ^ back) :
    bigEndian (bytes.drop front) = bigEndian bytes := by
  have hzero : bigEndian (bytes.take front) = 0 :=
    (all_zero_iff_bigEndian _).mp ((zeros_front_iff hlength).mpr hlt)
  rw [bigEndian_take_drop hlength, hzero]
  omega

theorem ones_front_iff
    {bytes : Bytes} {front back : Nat}
    (hlength : bytes.length = front + back) :
    ((bytes.take front).all (· == 0xFF)) = true ↔
      256 ^ (front + back) ≤ bigEndian bytes + 256 ^ back := by
  have hfront : (bytes.take front).length = front := by
    rw [List.length_take]
    omega
  have hlow := bigEndian_drop_lt hlength
  have hhigh := bigEndian_lt (bytes.take front)
  rw [hfront] at hhigh
  rw [all_ones_iff_bigEndian, bigEndian_take_drop hlength, hfront, Nat.pow_add]
  constructor
  · intro hones
    have hproduct :
        (bigEndian (bytes.take front) + 1) * 256 ^ back =
          bigEndian (bytes.take front) * 256 ^ back + 256 ^ back := Nat.succ_mul _ _
    rw [← hones, hproduct]
    omega
  · intro hle
    by_contra hother
    have hsmall : bigEndian (bytes.take front) + 2 ≤ 256 ^ front := by omega
    have hproduct := Nat.mul_le_mul_right (256 ^ back) hsmall
    have hexpand :
        (bigEndian (bytes.take front) + 2) * 256 ^ back =
          bigEndian (bytes.take front) * 256 ^ back + 2 * 256 ^ back := Nat.add_mul _ _ _
    omega

theorem bigEndian_drop_of_top
    {bytes : Bytes} {front back : Nat}
    (hlength : bytes.length = front + back)
    (htop : 256 ^ (front + back) ≤ bigEndian bytes + 256 ^ back) :
    bigEndian (bytes.drop front) + 256 ^ (front + back) = bigEndian bytes + 256 ^ back := by
  have hones := (all_ones_iff_bigEndian _).mp ((ones_front_iff hlength).mpr htop)
  have hfront : (bytes.take front).length = front := by
    rw [List.length_take]
    omega
  rw [hfront] at hones
  rw [bigEndian_take_drop hlength, Nat.pow_add, ← hones]
  ring

/-- The first byte has its high bit clear exactly for numbers in the lower half. -/
theorem headD_lt_iff
    {bytes : Bytes} {count : Nat}
    (hlength : bytes.length = count + 1) :
    (bytes.headD 0).toNat < 128 ↔ 2 * bigEndian bytes < 256 ^ (count + 1) := by
  obtain ⟨first, rest, rfl⟩ := List.exists_cons_of_length_eq_add_one hlength
  have hrest : rest.length = count := by simpa using hlength
  have hlow := bigEndian_lt rest
  rw [bigEndian_cons, hrest, Nat.pow_succ', List.headD_cons]
  rw [hrest] at hlow
  constructor
  · intro hsmall
    have hproduct := Nat.mul_le_mul_right (256 ^ count) (show first.toNat + 1 ≤ 128 by omega)
    rw [Nat.succ_mul] at hproduct
    omega
  · intro hhalf
    by_contra hlarge
    have hproduct := Nat.mul_le_mul_right (256 ^ count) (show 128 ≤ first.toNat by omega)
    omega

end MintWatch
