import Wjfs.Frame.Scan

/-!
# Wjfs.Frame.Number

Inode numbers on the wire.

`%d` prints an inode number from `2^31` on with a minus sign, and `string2int`
takes the sign for a digit of value -3.  A printed number `-m` with `k` digits
is read back as `m - 3 * 10^k`, so it survives if and only if `2 * m` and
`3 * 10^k` agree modulo `2^32`, which happens once.
-/

namespace Wjfs

/-- What `string2int` makes of a negative number. -/
theorem string2int_minus (m : Nat) :
    string2int (45 :: decimal m) = -3 * 10 ^ (decimal m).length + (m : CInt) := by
  unfold string2int
  rw [List.foldl_cons, foldl_decimal]
  rfl

/-- A printed number of at most `2^31` has between one and ten digits. -/
theorem length_decimal_bounds {m : Nat} (h0 : m ≠ 0) :
    m < 10 ^ (decimal m).length ∧ 10 ^ (decimal m).length ≤ 10 * m := by
  rw [decimal, List.length_map]
  exact Numeral.length_render_bounds (by decide) h0

/-- A negative number survives if twice the number and `3 * 10^k` agree modulo
the width, `k` being the number of its digits. -/
theorem string2int_minus_eq_iff (m : Nat) :
    string2int (45 :: decimal m) = -(m : CInt) ↔
      2 * m % 2 ^ 32 = 3 * 10 ^ (decimal m).length % 2 ^ 32 := by
  have hcast : ((2 * m : Nat) : CInt) = ((3 * 10 ^ (decimal m).length : Nat) : CInt) ↔
      2 * m % 2 ^ 32 = 3 * 10 ^ (decimal m).length % 2 ^ 32 := by
    rw [← BitVec.toNat_inj]
    exact Iff.rfl
  rw [string2int_minus, ← hcast]
  push_cast
  generalize (10 : CInt) ^ (decimal m).length = p
  generalize (m : CInt) = x
  constructor <;> intro h <;> bv_omega

/-- That happens for one number. -/
theorem string2int_minus_iff {m : Nat} (h0 : m ≠ 0) (hm : m ≤ 2 ^ 31) :
    string2int (45 :: decimal m) = -(m : CInt) ↔ m = 2115098112 := by
  obtain ⟨hlt, hle⟩ := length_decimal_bounds h0
  have hlen : (decimal m).length ≤ 10 := length_decimal_le (by omega)
  rw [string2int_minus_eq_iff]
  generalize (decimal m).length = k at hlt hle hlen
  interval_cases k <;> omega

/-- **Inode numbers on the wire.**  An `int` survives `%d` and `string2int` if
and only if it is not negative, or is -2115098112; of the unsigned inode numbers
these are the ones below `2^31`, and 2179869184. -/
theorem string2int_fmtInt_iff (n : CInt) :
    (string2int (fmtInt n) = n ↔ 0 ≤ n.toInt ∨ n.toInt = -2115098112) ∧
      (string2int (fmtInt n) = n ↔ n.toNat < 2 ^ 31 ∨ n.toNat = 2179869184) := by
  have hn := n.isLt
  have hsurvives : string2int (fmtInt n) = n ↔ n.toNat < 2 ^ 31 ∨ n.toNat = 2179869184 := by
    cases hmsb : n.msb with
    | false =>
        have hlt := BitVec.msb_eq_false_iff_two_mul_lt.mp hmsb
        exact iff_of_true (string2int_fmtInt hmsb) (.inl (by omega))
    | true =>
        have hge := BitVec.msb_eq_true_iff_two_mul_ge.mp hmsb
        have hneg : n = -((2 ^ 32 - n.toNat : Nat) : CInt) := by
          rw [← BitVec.toNat_inj]
          simp
          omega
        have hprint : fmtInt n = 45 :: decimal (2 ^ 32 - n.toNat) := by
          rw [fmtInt, if_pos hmsb]
        rw [hprint]
        conv => lhs; rhs; rw [hneg]
        rw [string2int_minus_iff (by omega) (by omega)]
        omega
  refine ⟨hsurvives.trans ?_, hsurvives⟩
  rw [BitVec.toInt_eq_toNat_cond]
  split <;> omega

end Wjfs
