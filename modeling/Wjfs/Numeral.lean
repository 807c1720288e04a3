import Mathlib.Data.Nat.Digits.Lemmas

/-!
# Wjfs.Numeral

Positional numerals, most significant digit first: `render` writes a natural
number as its list of digits, `horner` evaluates a list of digits by Horner's
rule in an arbitrary commutative semiring.  The two are inverse up to the
cast into that semiring (`horner_render`), so the law holds for wrap-around
machine arithmetic just as it does for `Nat`.
-/

namespace Numeral

/-- The digits of `n` in base `b`, most significant first; zero is the single
digit `0`. -/
def render (b n : Nat) : List Nat := if n = 0 then [0] else (Nat.digits b n).reverse

/-- Horner's rule: `x := x * b + d` over the digits. -/
def horner {R : Type*} [Semiring R] (b : R) (ds : List R) : R :=
  ds.foldl (fun x d => x * b + d) 0

/-- Horner's rule from any start: the start is shifted past the digits. -/
theorem foldl_horner {R : Type*} [CommSemiring R] (b : R) (ds : List R) (x : R) :
    ds.foldl (fun x d => x * b + d) x = x * b ^ ds.length + horner b ds := by
  induction ds using List.reverseRecOn generalizing x with
  | nil => simp [horner]
  | append_singleton ds d ih =>
      simp only [horner, List.foldl_append, List.foldl_cons, List.foldl_nil, List.length_append,
        List.length_singleton]
      rw [ih, ih 0]
      ring

/-- Evaluating the digits of `n` gives `n` back, in any commutative
semiring. -/
theorem horner_render {R : Type*} [CommSemiring R] (b n : Nat) :
    horner (b : R) ((render b n).map Nat.cast) = (n : R) := by
  by_cases h : n = 0
  · subst h
    simp [render, horner]
  · have hof : Nat.ofDigits (b : R) (Nat.digits b n) = (n : R) := by
      rw [← Nat.coe_ofDigits, Nat.ofDigits_digits]
    rw [render, if_neg h, horner, List.map_reverse, List.foldl_reverse, List.foldr_map, ← hof,
      Nat.ofDigits_eq_foldr]
    congr 1
    funext d x
    ring

theorem render_ne_nil (b n : Nat) : render b n ≠ [] := by
  by_cases h : n = 0
  · simp [render, h]
  · simp [render, h, Nat.digits_ne_nil_iff_ne_zero]

/-- Every digit is below the base. -/
theorem lt_of_mem_render {b n d : Nat} (hb : 1 < b) (h : d ∈ render b n) : d < b := by
  by_cases hn : n = 0
  · simp only [render, if_pos hn, List.mem_singleton] at h
    omega
  · rw [render, if_neg hn, List.mem_reverse] at h
    exact Nat.digits_lt_base hb h

/-- A number below `b ^ k` has at most `k` digits. -/
theorem length_render_le {b n k : Nat} (hb : 1 < b) (hk : 0 < k) (h : n < b ^ k) :
    (render b n).length ≤ k := by
  by_cases hn : n = 0
  · simp only [render, if_pos hn, List.length_singleton]
    omega
  · rw [render, if_neg hn, List.length_reverse]
    exact (Nat.digits_length_le_iff hb n).mpr h

/-- A number with `k` digits is below `b ^ k`, and unless it is zero not below
`b ^ (k - 1)`. -/
theorem length_render_bounds {b n : Nat} (hb : 1 < b) (hn : n ≠ 0) :
    n < b ^ (render b n).length ∧ b ^ (render b n).length ≤ b * n := by
  rw [render, if_neg hn, List.length_reverse]
  exact ⟨Nat.lt_base_pow_length_digits hb, Nat.base_pow_length_digits_le b n hb hn⟩

end Numeral
