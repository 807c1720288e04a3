import Mathlib.Data.List.Basic

/-!
# Wjfs.Cells

Memory as cells under numbers.  `write` stores a list from an address on,
`read` gives a window of cells as a list, and `run` carries out stores one after
the other.  What a window holds after some stores is found from the last of them
that touches it: `read_write` for that one, `read_run` for the others.
-/

namespace Cells

variable {β : Type*} {m : Nat → β} {a b n : Nat} {bs : List β}

/-- The `n` cells from `a` on. -/
def read (m : Nat → β) (a n : Nat) : List β := (List.range n).map fun j => m (a + j)

/-- The memory with a list stored from `a` on. -/
def write (m : Nat → β) (a : Nat) (bs : List β) : Nat → β := fun x =>
  if a ≤ x then bs[x - a]?.getD (m x) else m x

/-- The memory after some stores, the first one first. -/
def run (m : Nat → β) (stores : List (Nat × List β)) : Nat → β :=
  stores.foldl (fun m s => write m s.1 s.2) m

@[simp] theorem length_read (m : Nat → β) (a n : Nat) : (read m a n).length = n := by
  simp [read]

theorem getElem?_read (m : Nat → β) (a n j : Nat) :
    (read m a n)[j]? = if j < n then some (m (a + j)) else none := by
  unfold read
  rw [List.getElem?_map]
  split
  next hlt => rw [List.getElem?_range hlt, Option.map_some]
  next hlt => rw [List.getElem?_eq_none (by simpa using hlt), Option.map_none]

/-- Two windows have no cell in common. -/
def Apart (a n b k : Nat) : Prop := a + n ≤ b ∨ b + k ≤ a

/-- A store leaves the cells alone that it does not touch. -/
theorem write_of_apart (h : Apart a 1 b bs.length) : write m b bs a = m a := by
  unfold write
  split
  next hle =>
    have hlen : bs.length ≤ a - b := by
      rcases h with h | h <;> omega
    rw [List.getElem?_eq_none hlen, Option.getD_none]
  · rfl

theorem read_write_of_apart (h : Apart a n b bs.length) :
    read (write m b bs) a n = read m a n := by
  refine List.map_congr_left fun j hj => write_of_apart ?_
  rw [List.mem_range] at hj
  rcases h with h | h
  · exact .inl (by omega)
  · exact .inr (by omega)

/-- The window where the store begins: what is stored, and the cells behind it
if there are any left. -/
theorem read_write (m : Nat → β) (a n : Nat) (bs : List β) :
    read (write m a bs) a n = (bs ++ (read m a n).drop bs.length).take n := by
  refine List.ext_getElem? fun j => ?_
  rw [getElem?_read, List.getElem?_take, List.getElem?_append, List.getElem?_drop, getElem?_read]
  by_cases hn : j < n
  swap
  · rw [if_neg hn, if_neg hn]
  rw [if_pos hn, if_pos hn, write, if_pos (Nat.le_add_right a j), Nat.add_sub_cancel_left]
  by_cases hj : j < bs.length
  · rw [if_pos hj, List.getElem?_eq_getElem hj, Option.getD_some]
  · rw [if_neg hj, Nat.add_sub_cancel' (Nat.le_of_not_lt hj), if_pos hn,
      List.getElem?_eq_none (Nat.le_of_not_lt hj), Option.getD_none]

/-- Stores that do not touch a window leave it alone. -/
theorem read_run {stores : List (Nat × List β)} (h : ∀ s ∈ stores, Apart a n s.1 s.2.length) :
    read (run m stores) a n = read m a n := by
  induction stores generalizing m with
  | nil => rfl
  | cons s stores ih =>
      rw [run, List.foldl_cons, ← run, ih fun s' hs' => h s' (List.mem_cons_of_mem s hs')]
      exact read_write_of_apart (h s List.mem_cons_self)

/-- What one store in the middle leaves, if the later ones do not touch it. -/
theorem read_run_append {before after : List (Nat × List β)}
    (h : ∀ s ∈ after, Apart a n s.1 s.2.length) :
    read (run m (before ++ (a, bs) :: after)) a n =
      (bs ++ (read (run m before) a n).drop bs.length).take n := by
  rw [run, List.foldl_append, List.foldl_cons, ← run, ← run, read_run h, read_write]

end Cells
