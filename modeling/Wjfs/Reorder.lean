import Mathlib.Data.List.Perm.Basic

/-!
# Wjfs.Reorder

Handling the items of a list one after the other, in two orders.

Some items have to come before others.  If any two items that may come in
either order can be exchanged, all orders that put every item after those it
has to wait for lead to the same state.
-/

namespace Reorder

variable {σ α : Type*} {step : σ → α → σ} {before : α → α → Prop} {a : α} {l l' u v : List α}

/-- No item stands after one that it has to come before. -/
def Respects (before : α → α → Prop) (l : List α) : Prop := l.Pairwise fun a b => ¬ before b a

/-- An item that can be exchanged with all items ahead of it comes first. -/
theorem foldl_front (hcomm : ∀ b ∈ u, ∀ s, step (step s b) a = step (step s a) b) (s : σ) :
    (u ++ a :: v).foldl step s = (a :: (u ++ v)).foldl step s := by
  induction u generalizing s with
  | nil => rfl
  | cons b u ih =>
      have hstep := ih (fun c hc => hcomm c (List.mem_cons_of_mem b hc)) (step s b)
      rw [List.cons_append, List.foldl_cons, hstep]
      simp only [List.foldl_cons, List.cons_append, hcomm b List.mem_cons_self s]

/-- **Two orders, one result**: both respect what has to come first, and
items that are free to come in either order can be exchanged. -/
theorem foldl_eq (hn : l.Nodup) (hperm : l.Perm l') (hl : Respects before l)
    (hl' : Respects before l')
    (hcomm : ∀ a ∈ l, ∀ b ∈ l, a ≠ b → ¬ before a b → ¬ before b a →
      ∀ s, step (step s a) b = step (step s b) a) (s : σ) :
    l.foldl step s = l'.foldl step s := by
  induction l generalizing l' s with
  | nil => rw [hperm.nil_eq]
  | cons a l ih =>
      -- the first item of one order can be moved to the front of the other
      obtain ⟨u, v, rfl⟩ := List.append_of_mem (hperm.mem_iff.mp List.mem_cons_self)
      have hrest : l.Perm (u ++ v) := (hperm.trans List.perm_middle).cons_inv
      obtain ⟨hal, hl⟩ := List.pairwise_cons.mp hl
      obtain ⟨hna, hn⟩ := List.nodup_cons.mp hn
      have hfront : ∀ b ∈ u, ∀ s, step (step s b) a = step (step s a) b := by
        intro b hb s
        have hbl : b ∈ l := hrest.mem_iff.mpr (List.mem_append_left v hb)
        have hba : ¬ before a b := (List.pairwise_append.mp hl').2.2 b hb a List.mem_cons_self
        exact hcomm b (List.mem_cons_of_mem a hbl) a List.mem_cons_self
          (fun heq => hna (heq ▸ hbl)) (hal b hbl) hba s
      have hl'' : Respects before (u ++ v) :=
        hl'.sublist ((List.sublist_cons_self a v).append_left u)
      rw [foldl_front hfront, List.foldl_cons, List.foldl_cons]
      exact ih hn hrest hl hl'' (fun b hb c hc => hcomm b (List.mem_cons_of_mem a hb) c
        (List.mem_cons_of_mem a hc)) (step s a)

end Reorder
