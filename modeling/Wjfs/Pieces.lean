import Mathlib.Data.List.Basic

/-!
# Wjfs.Pieces

Splitting a list at every separator and dropping one final empty piece: the
reading of a separated record in which a trailing separator ends the last
field instead of opening another one.

`List.splitOnP` does the splitting; this module adds what a one-pass scanner
needs to know about it: pieces hold no separator, a separator-free prefix
stays in the first piece, and a separator closes the piece in front of it.
-/

namespace Pieces

variable {α : Type*} {p : α → Bool}

/-- The pieces of `l` between separators, without a final empty one. -/
def pieces [DecidableEq α] (p : α → Bool) (l : List α) : List (List α) :=
  if (l.splitOnP p).getLast? = some [] then (l.splitOnP p).dropLast else l.splitOnP p

/-- No piece contains a separator. -/
theorem false_of_mem_splitOnP {l x : List α} (hx : x ∈ l.splitOnP p) {c : α} (hc : c ∈ x) :
    p c = false := by
  induction l generalizing x with
  | nil =>
      simp only [List.splitOnP_nil, List.mem_singleton] at hx
      subst hx
      cases hc
  | cons a l ih =>
      rw [List.splitOnP_cons_eq_if_modifyHead] at hx
      by_cases ha : p a = true
      · rw [if_pos ha, List.mem_cons] at hx
        cases hx with
        | inl h => subst h; cases hc
        | inr h => exact ih h hc
      · rw [if_neg ha] at hx
        obtain ⟨q, qs, hq⟩ := List.exists_cons_of_ne_nil (List.splitOnP_ne_nil p l)
        rw [hq, List.modifyHead_cons, List.mem_cons] at hx
        cases hx with
        | inl h =>
            subst h
            cases List.mem_cons.mp hc with
            | inl h' => subst h'; simpa using ha
            | inr h' => exact ih (hq ▸ List.mem_cons_self) h'
        | inr h => exact ih (hq ▸ List.mem_cons_of_mem _ h) hc

/-- A separator-free prefix extends the first piece. -/
theorem splitOnP_append {r l : List α} (hr : ∀ c ∈ r, p c = false) :
    (r ++ l).splitOnP p = (l.splitOnP p).modifyHead (r ++ ·) := by
  induction r with
  | nil =>
      obtain ⟨q, qs, hq⟩ := List.exists_cons_of_ne_nil (List.splitOnP_ne_nil p l)
      simp [hq]
  | cons a r ih =>
      have ha : p a = false := hr a List.mem_cons_self
      rw [List.cons_append, List.splitOnP_cons_eq_if_modifyHead, ha,
        ih fun c hc => hr c (List.mem_cons_of_mem _ hc)]
      obtain ⟨q, qs, hq⟩ := List.exists_cons_of_ne_nil (List.splitOnP_ne_nil p l)
      simp [hq]

/-- What follows the `n`-th separator; `none` if there are fewer. -/
def after (p : α → Bool) : Nat → List α → Option (List α)
  | 0, l => some l
  | _ + 1, [] => none
  | n + 1, c :: l => if p c then after p n l else after p (n + 1) l

@[simp] theorem after_zero (l : List α) : after p 0 l = some l := by cases l <;> rfl

/-- Bytes in front of the next separator are passed over. -/
theorem after_append {r : List α} (hr : ∀ c ∈ r, p c = false) (n : Nat) (l : List α) :
    after p (n + 1) (r ++ l) = after p (n + 1) l := by
  induction r with
  | nil => rfl
  | cons a r ih =>
      have ha : p a = false := hr a List.mem_cons_self
      rw [List.cons_append, after, ha]
      exact ih fun c hc => hr c (List.mem_cons_of_mem _ hc)

/-- The first separator counts. -/
theorem after_append_cons {r : List α} (hr : ∀ c ∈ r, p c = false) {s : α} (hs : p s = true)
    (n : Nat) (l : List α) : after p (n + 1) (r ++ s :: l) = after p n l := by
  rw [after_append hr, after, if_pos hs]

/-- What stands before the rest holds the `n` separators. -/
theorem exists_append_of_after {n : Nat} {l rest : List α} (h : after p n l = some rest) :
    ∃ pre, l = pre ++ rest ∧ pre.countP p = n := by
  induction l generalizing n with
  | nil =>
      cases n with
      | zero => exact ⟨[], by simpa [after] using h, rfl⟩
      | succ n => cases h
  | cons c l ih =>
      cases n with
      | zero => exact ⟨[], by simpa [after] using h, rfl⟩
      | succ n =>
          unfold after at h
          split at h
          · next hc =>
              obtain ⟨pre, rfl, hpre⟩ := ih h
              exact ⟨c :: pre, rfl, by rw [List.countP_cons_of_pos hc, hpre]⟩
          · next hc =>
              obtain ⟨pre, rfl, hpre⟩ := ih h
              exact ⟨c :: pre, rfl, by rw [List.countP_cons_of_neg hc, hpre]⟩

variable [DecidableEq α]

@[simp] theorem pieces_nil : pieces p [] = [] := by simp [pieces]

theorem false_of_mem_pieces {l x : List α} (hx : x ∈ pieces p l) {c : α} (hc : c ∈ x) :
    p c = false := by
  unfold pieces at hx
  split at hx
  · exact false_of_mem_splitOnP ((List.dropLast_sublist _).subset hx) hc
  · exact false_of_mem_splitOnP hx hc

/-- A separator closes the piece in front of it. -/
theorem pieces_append_cons {r : List α} (hr : ∀ c ∈ r, p c = false) {s : α} (hs : p s = true)
    (l : List α) : pieces p (r ++ s :: l) = r :: pieces p l := by
  obtain ⟨q, qs, hq⟩ := List.exists_cons_of_ne_nil (List.splitOnP_ne_nil p l)
  have hsplit : (r ++ s :: l).splitOnP p = r :: q :: qs := by
    rw [List.splitOnP_append_cons_of_forall_mem hr s hs, hq]
  unfold pieces
  rw [hsplit, hq, List.getLast?_cons_cons]
  split
  · simp
  · rfl

/-- Without a separator there is one piece. -/
theorem pieces_singleton {r : List α} (hr : ∀ c ∈ r, p c = false) (hne : r ≠ []) :
    pieces p r = [r] := by
  simp [pieces, List.splitOnP_eq_singleton hr, hne]

/-- A non-empty separator-free prefix stays in the first piece. -/
theorem exists_pieces_append {r : List α} (hr : ∀ c ∈ r, p c = false) (hne : r ≠ [])
    (l : List α) : ∃ q qs, pieces p (r ++ l) = (r ++ q) :: qs := by
  obtain ⟨q, qs, hq⟩ := List.exists_cons_of_ne_nil (List.splitOnP_ne_nil p l)
  have hsplit : (r ++ l).splitOnP p = (r ++ q) :: qs := by
    rw [splitOnP_append hr, hq, List.modifyHead_cons]
  unfold pieces
  rw [hsplit]
  split
  · cases qs with
    | nil => simp_all
    | cons w ws => exact ⟨q, (w :: ws).dropLast, rfl⟩
  · exact ⟨q, qs, rfl⟩

end Pieces
