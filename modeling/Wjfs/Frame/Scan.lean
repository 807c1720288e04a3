import Wjfs.Frame
import Wjfs.Pieces

/-!
# Wjfs.Frame.Scan

What the scanning loops compute.  `scanRows_eq` gives the result of the
nested loops on every byte string: the pieces of the string, provided there
are at most `rows` of them and none is longer than 19 bytes, and a store
outside `tmp_name` otherwise.
-/

namespace Wjfs

open Pieces

/-! ## the inverse law of `%d` and `string2int` -/

/-- One step of `string2int` on a digit character. -/
theorem digit_toBitVec {d : Nat} (h : d < 10) :
    (UInt8.ofNat (48 + d)).toBitVec.signExtend 32 - 48 = (d : CInt) := by
  interval_cases d <;> rfl

/-- The loop of `string2int` over digit characters is Horner's rule over the
digits. -/
theorem foldl_digits {ds : List Nat} (hds : ∀ d ∈ ds, d < 10) (acc : CInt) :
    (ds.map fun d => UInt8.ofNat (48 + d)).foldl
        (fun ans c => ans * 10 + (c.toBitVec.signExtend 32 - 48)) acc =
      (ds.map (Nat.cast : Nat → CInt)).foldl (fun x d => x * 10 + d) acc := by
  induction ds generalizing acc with
  | nil => rfl
  | cons d ds ih =>
      have h0 := digit_toBitVec (hds d List.mem_cons_self)
      simp only [List.map_cons, List.foldl_cons, h0]
      exact ih (fun x hx => hds x (List.mem_cons_of_mem _ hx)) _

/-- The loop of `string2int` over the decimal digits of `n`, with something
read before them. -/
theorem foldl_decimal (n : Nat) (acc : CInt) :
    (decimal n).foldl (fun ans c => ans * 10 + (c.toBitVec.signExtend 32 - 48)) acc =
      acc * 10 ^ (decimal n).length + (n : CInt) := by
  have hlt : ∀ d ∈ Numeral.render 10 n, d < 10 := fun d hd =>
    Numeral.lt_of_mem_render (by decide) hd
  unfold decimal
  rw [foldl_digits hlt, Numeral.foldl_horner, List.length_map, List.length_map]
  exact congrArg (_ + ·) (Numeral.horner_render (R := CInt) 10 n)

/-- `string2int` reads the decimal digits of `n` as `n`, modulo the width. -/
theorem string2int_decimal (n : Nat) : string2int (decimal n) = (n : CInt) := by
  unfold string2int
  rw [foldl_decimal, zero_mul, zero_add]

/-- **Inverse law**: a non-negative `int` survives `%d` and `string2int`. -/
theorem string2int_fmtInt {i : CInt} (h : i.msb = false) : string2int (fmtInt i) = i := by
  rw [fmtInt, h]
  simp only [Bool.false_eq_true, if_false]
  rw [string2int_decimal]
  simp

/-- Decimal digits are characters between `'0'` and `'9'`. -/
theorem digit_of_mem_decimal {n : Nat} {c : UInt8} (hc : c ∈ decimal n) : 48 ≤ c ∧ c ≤ 57 := by
  obtain ⟨d, hd, rfl⟩ := List.mem_map.mp hc
  have hlt : d < 10 := Numeral.lt_of_mem_render (by decide) hd
  interval_cases d <;> decide

theorem decimal_ne_nil (n : Nat) : decimal n ≠ [] := by
  simp [decimal, Numeral.render_ne_nil]

theorem isSep_decimal (n : Nat) : ∀ c ∈ decimal n, isSep c = false := by
  intro c hc
  obtain ⟨d, hd, rfl⟩ := List.mem_map.mp hc
  have hlt : d < 10 := Numeral.lt_of_mem_render (by decide) hd
  interval_cases d <;> rfl

theorem isSep_fmtInt (i : CInt) : ∀ c ∈ fmtInt i, isSep c = false := by
  intro c hc
  unfold fmtInt at hc
  split at hc
  · cases List.mem_cons.mp hc with
    | inl h => subst h; rfl
    | inr h => exact isSep_decimal _ c h
  · exact isSep_decimal _ c hc

theorem length_decimal_le {n : Nat} (h : n < 10 ^ 10) : (decimal n).length ≤ 10 := by
  rw [decimal, List.length_map]
  exact Numeral.length_render_le (by decide) (by decide) h

/-- `%d` prints an `int` in at most eleven characters. -/
theorem length_fmtInt_le (i : CInt) : (fmtInt i).length ≤ 11 := by
  have hi := i.isLt
  unfold fmtInt
  split
  · have h := length_decimal_le (n := 2 ^ 32 - i.toNat) (by omega)
    simp only [List.length_cons]
    omega
  · have h := length_decimal_le (n := i.toNat) (by omega)
    omega

/-! ## the nested loops -/

/-- The nested loops, from any point they can be at: `cur` is what the inner
loop has stored in the current row. -/
theorem scanRows_aux (rows : Nat) (tmp : Bytes) (cur : Option Bytes) (done : List Bytes)
    (hcur : ∀ r, cur = some r → r ≠ [] ∧ ∀ c ∈ r, isSep c = false) :
    scanRows rows cur done tmp =
      (if done.length + (pieces isSep (cur.getD [] ++ tmp)).length ≤ rows ∧
          ∀ f ∈ pieces isSep (cur.getD [] ++ tmp), f.length < 20 then
        .ok (done ++ pieces isSep (cur.getD [] ++ tmp))
      else if pieces isSep (cur.getD [] ++ tmp) = [] then .ok done
      else .error .outOfBounds) := by
  induction tmp generalizing cur done with
  | nil =>
      cases cur with
      | none => by_cases h : done.length ≤ rows <;> simp [scanRows, h]
      | some r =>
          obtain ⟨hne, hr⟩ := hcur r rfl
          simp only [scanRows, closeRow, Option.getD_some, List.append_nil,
            pieces_singleton hr hne, List.length_singleton, List.mem_singleton, forall_eq]
          by_cases h : done.length + 1 ≤ rows ∧ r.length < 20
          · rw [if_pos ⟨by omega, h.2⟩, if_pos h]
          · rw [if_neg (by omega), if_neg h]
            simp
  | cons c tmp ih =>
      have hr : ∀ x ∈ cur.getD [], isSep x = false := by
        cases cur with
        | none => simp
        | some r => exact (hcur r rfl).2
      have hstep : scanRows rows cur done (c :: tmp) =
          if isSep c then (closeRow rows done (cur.getD [])).bind
            fun done => scanRows rows none done tmp
          else (storeByte rows done (cur.getD []) c).bind
            fun row => scanRows rows (some row) done tmp := by
        cases cur <;> rfl
      rw [hstep]
      by_cases hc : isSep c = true
      · -- the separator ends the row and the outer loop goes round
        rw [if_pos hc, pieces_append_cons hr hc]
        unfold closeRow
        by_cases hb : done.length < rows ∧ (cur.getD []).length < 20
        · rw [if_pos hb]
          simp only [Except.bind]
          rw [ih none _ (by simp)]
          simp only [Option.getD_none, List.nil_append, List.length_append, List.length_cons,
            List.length_nil, Nat.zero_add, List.mem_cons, forall_eq_or_imp]
          by_cases hok : done.length + 1 + (pieces isSep tmp).length ≤ rows ∧
              ∀ f ∈ pieces isSep tmp, f.length < 20
          · rw [if_pos hok, if_pos ⟨by omega, hb.2, hok.2⟩]
            simp
          · have hno : ¬ (done.length + ((pieces isSep tmp).length + 1) ≤ rows ∧
                (cur.getD []).length < 20 ∧ ∀ f ∈ pieces isSep tmp, f.length < 20) :=
              fun h => hok ⟨by omega, h.2.2⟩
            rw [if_neg hok, if_neg hno]
            by_cases he : pieces isSep tmp = []
            · exfalso
              apply hok
              rw [he]
              exact ⟨by simp; omega, by simp⟩
            · simp [he]
        · rw [if_neg hb]
          simp only [Except.bind, List.length_cons, List.mem_cons, forall_eq_or_imp]
          rw [if_neg (by rintro ⟨h1, h2, _⟩; exact hb ⟨by omega, h2⟩)]
          simp
      · -- the inner loop stores one more byte
        rw [if_neg hc]
        have hc' : isSep c = false := by simpa using hc
        have hrc : ∀ x ∈ cur.getD [] ++ [c], isSep x = false := by
          intro x hx
          cases List.mem_append.mp hx with
          | inl h => exact hr x h
          | inr h => rw [List.mem_singleton.mp h]; exact hc'
        have happ : cur.getD [] ++ c :: tmp = (cur.getD [] ++ [c]) ++ tmp := by simp
        rw [happ]
        unfold storeByte
        by_cases hb : done.length < rows ∧ (cur.getD []).length < 20
        · rw [if_pos hb]
          simp only [Except.bind]
          rw [ih (some (cur.getD [] ++ [c])) done
            (by intro r h; rw [← Option.some.inj h]; exact ⟨by simp, hrc⟩)]
          rfl
        · rw [if_neg hb]
          obtain ⟨q, qs, hq⟩ := exists_pieces_append hrc (by simp) tmp
          rw [hq]
          simp only [Except.bind, List.length_cons, List.mem_cons, forall_eq_or_imp,
            List.length_append]
          rw [if_neg (by rintro ⟨h1, h2, _⟩; apply hb; constructor <;> omega)]
          simp

/-- **The nested loops**: the rows are the pieces of the string, if they fit
`tmp_name[rows][20]`. -/
theorem scanRows_eq (rows : Nat) (tmp : Bytes) :
    scanRows rows none [] tmp =
      (if (pieces isSep tmp).length ≤ rows ∧ ∀ f ∈ pieces isSep tmp, f.length < 20 then
        .ok (pieces isSep tmp)
      else .error .outOfBounds) := by
  rw [scanRows_aux rows tmp none [] (by simp)]
  by_cases h : pieces isSep tmp = []
  · simp [h]
  · simp [h]

end Wjfs
