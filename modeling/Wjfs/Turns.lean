import Mathlib.Algebra.Group.Nat.Even
import Mathlib.Data.List.Basic

/-!
# Wjfs.Turns

A flag that everybody shares and every call flips.

Participants take turns in some order; a call answers with the flag, and a
participant stops listening after the first `false`.  `heard_eq_iff` says
exactly in which orders a participant hears what it would hear alone: when an
even number of calls of others stand before each of its calls that it listens
to.
-/

namespace Turns

variable {R : Type*} [DecidableEq R]

/-- What the calls of `r` answer, in an order of turns that starts with the
flag at `b`. -/
def answers (r : R) : Bool → List R → List Bool
  | _, [] => []
  | b, c :: cs => if c = r then b :: answers r (!b) cs else answers r (!b) cs

/-- The answers up to and with the first `false`. -/
def heard : List Bool → List Bool
  | [] => []
  | true :: bs => true :: heard bs
  | false :: _ => [false]

/-- The flag after `n` calls. -/
def after (b : Bool) (n : Nat) : Bool := if n % 2 = 0 then b else !b

@[simp] theorem after_zero (b : Bool) : after b 0 = b := rfl

theorem after_succ (b : Bool) (n : Nat) : after b (n + 1) = after (!b) n := by
  have hsucc : (n + 1) % 2 = 0 ↔ ¬ n % 2 = 0 := by omega
  by_cases hn : n % 2 = 0 <;> simp [after, hsucc, hn]

/-- Only an even number of further calls leaves the flag where it is. -/
theorem after_add_eq_iff (b : Bool) (m n : Nat) : after b (m + n) = after b m ↔ Even n := by
  rw [Nat.even_iff]
  have hadd : (m + n) % 2 = 0 ↔ (m % 2 = 0 ↔ n % 2 = 0) := by omega
  by_cases hm : m % 2 = 0 <;> by_cases hn : n % 2 = 0 <;> simp [after, hadd, hm, hn]

/-- Where the shared flag is at `b` and the flag of `r` alone would be at `a`,
each call that `r` listens to finds them equal. -/
def InStep (r : R) (a b : Bool) (cs : List R) : Prop :=
  ∀ pre post, cs = pre ++ r :: post → pre.count r < (if a then 2 else 1) →
    after b pre.length = after a (pre.count r)

/-- A turn of somebody else flips the shared flag only. -/
theorem inStep_cons_other {r c : R} {a b : Bool} {cs : List R} (hc : c ≠ r) :
    InStep r a b (c :: cs) ↔ InStep r a (!b) cs := by
  constructor
  · intro h pre post hcs hlt
    have := h (c :: pre) post (by rw [hcs]; rfl) (by simpa [List.count_cons_of_ne hc] using hlt)
    rwa [List.length_cons, after_succ, List.count_cons_of_ne hc] at this
  · intro h pre post hcs hlt
    cases pre with
    | nil => exact absurd (List.cons.inj hcs).1 hc
    | cons d pre =>
        obtain ⟨rfl, rfl⟩ := List.cons.inj hcs
        rw [List.count_cons_of_ne hc] at hlt ⊢
        rw [List.length_cons, after_succ]
        exact h pre post rfl hlt

/-- A turn of `r` itself: the flags are equal now and, unless `r` stops
listening, stay in step. -/
theorem inStep_cons_self {r : R} {a b : Bool} {cs : List R} :
    InStep r a b (r :: cs) ↔ b = a ∧ (a = true → InStep r (!a) (!b) cs) := by
  constructor
  · intro h
    refine ⟨by simpa using h [] cs rfl (by cases a <;> simp), fun ha pre post hcs hlt => ?_⟩
    subst ha
    have := h (r :: pre) post (by rw [hcs]; rfl) (by simp at hlt; simp [hlt])
    rwa [List.length_cons, after_succ, List.count_cons_self, after_succ] at this
  · rintro ⟨rfl, h⟩ pre post hcs hlt
    cases pre with
    | nil => simp
    | cons d pre =>
        obtain ⟨rfl, rfl⟩ := List.cons.inj hcs
        rw [List.count_cons_self] at hlt ⊢
        cases b with
        | false => simp at hlt
        | true =>
            rw [List.length_cons, after_succ, after_succ]
            exact h rfl pre post rfl (by simp at hlt ⊢; omega)

/-- What `r` hears is what it would hear alone, exactly when the flags stay in
step. -/
theorem heard_eq_iff_inStep (r : R) (a b : Bool) (cs : List R) :
    heard (answers r b cs) = heard (answers r a (cs.filter (· = r))) ↔ InStep r a b cs := by
  induction cs generalizing a b with
  | nil => simp [answers, InStep]
  | cons c cs ih =>
      by_cases hc : c = r
      · subst hc
        rw [inStep_cons_self, List.filter_cons_of_pos (by simp), answers, if_pos rfl, answers,
          if_pos rfl]
        cases a <;> cases b <;> simp [heard, ih]
      · rw [inStep_cons_other hc, List.filter_cons_of_neg (by simpa using hc), answers, if_neg hc]
        exact ih a (!b)

/-- **A shared flag**: `r` hears what it would hear alone exactly when an even
number of turns of others stand before each turn of `r` up to the first
`false` it would hear. -/
theorem heard_eq_iff (r : R) (b : Bool) (cs : List R) :
    heard (answers r b cs) = heard (answers r b (cs.filter (· = r))) ↔
      ∀ pre post, cs = pre ++ r :: post → pre.count r < (if b then 2 else 1) →
        Even (pre.countP (· ≠ r)) := by
  rw [heard_eq_iff_inStep]
  refine forall₄_congr fun pre post _ _ => ?_
  have hlen : pre.length = pre.count r + pre.countP (· ≠ r) := by
    rw [List.length_eq_countP_add_countP (· == r), List.count]
    simp
  rw [hlen, after_add_eq_iff]

end Turns
