import Mathlib.Data.List.Basic
import Mathlib.Tactic.Ring

/-!
# Wjfs.Paged

Files kept as a table of pages of equal size, with the two loops that every
page cache has: one that copies a range out page by page, filling in pages
that are missing, and one that stores a list page by page.

A file is read as the flat sequence `get`; `get_read`, `bytes_read`,
`get_write` and `size_write` say what the loops do to it, without a word on
page boundaries.
-/

namespace Paged

variable {β : Type*}

/-- A file: its pages, `none` for one that was never filled, and its size. -/
structure File (β : Type*) where
  pages : Nat → Option (Nat → β)
  size : Nat

section Defs

variable (P : Nat) (z : β) (f : File β)

/-- The element at a position; a missing page reads as `z`. -/
def get (n : Nat) : β := (f.pages (n / P)).elim z fun page => page (n % P)

/-- What the file holds. -/
def contents : List β := (List.range f.size).map (get P z f)

/-- A page, filled with `z` if it was missing. -/
def page (i : Nat) : Nat → β := (f.pages i).getD fun _ => z

/-- Fill a page that is missing. -/
def touch (i : Nat) : File β :=
  { f with pages := fun j => if j = i then some (page z f i) else f.pages j }

/-- Store a list into one page, from an offset on. -/
def store (i off : Nat) (bs : List β) : File β where
  pages := fun j =>
    if j = i then
      some fun k => if off ≤ k then (bs[k - off]?).getD (page z f i k) else page z f i k
    else f.pages j
  size := max f.size (i * P + off + bs.length)

/-- How much of the page at `pos` can be copied, from `pos` on: nothing past
the last page, up to the end of the file on the last page, else up to the end
of the page. -/
def avail (size pos : Nat) : Nat :=
  if size = 0 ∨ (size - 1) / P < pos / P then 0
  else (if pos / P = (size - 1) / P then (size - 1) % P + 1 else P) - pos % P

/-- The loop that copies `count` elements out from position `pos` on, one
page a round.  The page is brought in before the size is looked at. -/
def read : Nat → File β → Nat → Nat → File β × List β
  | 0, f, _, _ => (f, [])
  | fuel + 1, f, pos, count =>
      let f := touch z f (pos / P)
      let nr := avail P f.size pos
      let n := min nr count
      let bs := (List.range n).map fun k => page z f (pos / P) (pos % P + k)
      if n = nr ∧ 0 < n ∧ n < count then
        let r := read fuel f (pos + n) (count - n)
        (r.1, bs ++ r.2)
      else (f, bs)

/-- The loop that stores a list from position `pos` on, one page a round. -/
def write : Nat → File β → Nat → List β → File β
  | 0, f, _, _ => f
  | fuel + 1, f, pos, bs =>
      if bs = [] then f
      else
        let n := min (P - pos % P) bs.length
        write fuel (store P z f (pos / P) (pos % P) (bs.take n)) (pos + n) (bs.drop n)

end Defs

/-! ## reading -/

section Laws

variable {P : Nat} {z : β} {f : File β}

theorem get_eq_page (n : Nat) : get P z f n = page z f (n / P) (n % P) := by
  unfold get page
  cases f.pages (n / P) <;> rfl

/-- Filling a page does not change what is read. -/
theorem get_touch (i n : Nat) : get P z (touch z f i) n = get P z f n := by
  rw [get_eq_page, get_eq_page]
  unfold page touch
  by_cases h : n / P = i
  · simp [h, page]
  · simp [h]

@[simp] theorem size_touch (i : Nat) : (touch z f i).size = f.size := rfl

/-- The page ends, or the file does. -/
theorem avail_eq (hP : 0 < P) (size pos : Nat) :
    avail P size pos = min (P - pos % P) (size - pos) := by
  have hpos := Nat.div_add_mod pos P
  have hmod := Nat.mod_lt pos hP
  unfold avail
  split
  · next h =>
      cases h with
      | inl h => omega
      | inr h =>
          have := Nat.lt_mul_of_div_lt h hP
          have : P * (pos / P) ≤ pos := Nat.mul_div_le pos P
          have := Nat.mul_comm (pos / P) P
          omega
  · next h =>
      have hlast := Nat.div_add_mod (size - 1) P
      have hlt := Nat.mod_lt (size - 1) hP
      split
      · next he =>
          rw [← he] at hlast
          omega
      · next he =>
          have hle : pos / P + 1 ≤ (size - 1) / P := by omega
          have := Nat.mul_le_mul_left P hle
          rw [Nat.mul_add] at this
          omega

/-- Positions inside the page at `pos`. -/
theorem get_add (f : File β) {pos k : Nat} (hk : pos % P + k < P) :
    get P z f (pos + k) = page z f (pos / P) (pos % P + k) := by
  have hP : 0 < P := by omega
  have hdiv : (pos + k) / P = pos / P := by
    conv_lhs => rw [← Nat.div_add_mod pos P, Nat.add_assoc]
    rw [Nat.mul_add_div hP, Nat.div_eq_of_lt hk, Nat.add_zero]
  have hmod : (pos + k) % P = pos % P + k := by
    conv_lhs => rw [← Nat.div_add_mod pos P, Nat.add_assoc]
    rw [Nat.mul_add_mod, Nat.mod_eq_of_lt hk]
  rw [get_eq_page, hdiv, hmod]

/-- **The loop copies the range out**, cut off at the end of the file. -/
theorem bytes_read (hP : 0 < P) {fuel : Nat} (f : File β) (pos : Nat) {count : Nat}
    (hfuel : count ≤ fuel) :
    (read P z fuel f pos count).2 =
      (List.range (min count (f.size - pos))).map fun k => get P z f (pos + k) := by
  induction fuel generalizing f pos count with
  | zero =>
      have : count = 0 := by omega
      simp [read, this]
  | succ fuel ih =>
      have hn : avail P (touch z f (pos / P)).size pos = min (P - pos % P) (f.size - pos) :=
        avail_eq hP _ _
      have hchunk : ∀ n, n ≤ P - pos % P →
          ((List.range n).map fun k => page z (touch z f (pos / P)) (pos / P) (pos % P + k)) =
            (List.range n).map fun k => get P z f (pos + k) := by
        intro n hle
        refine List.map_congr_left fun k hk => ?_
        rw [← get_touch (pos / P), get_add]
        have := List.mem_range.mp hk
        omega
      have hmod := Nat.mod_lt pos hP
      simp only [read, hn]
      split
      · next h =>
          obtain ⟨h₁, h₂, h₃⟩ := h
          have hsum : min count (f.size - pos) = min (min (P - pos % P) (f.size - pos)) count +
              min (count - min (min (P - pos % P) (f.size - pos)) count)
                (f.size - (pos + min (min (P - pos % P) (f.size - pos)) count)) := by omega
          show _ ++ _ = _
          rw [ih _ _ (by omega), hchunk _ (by omega), size_touch, hsum, List.range_add,
            List.map_append, List.map_map]
          congr 1
          refine List.map_congr_left fun k _ => ?_
          rw [get_touch, Nat.add_assoc]
          rfl
      · next h =>
          have hcut : min (min (P - pos % P) (f.size - pos)) count = min count (f.size - pos) := by
            have hroom : 0 < P - pos % P := by omega
            generalize P - pos % P = a at hroom h
            grind
          rw [← hcut]
          exact hchunk _ (by omega)

/-! ## writing -/

/-- What is read after a store that stays inside the page at `pos`. -/
theorem get_store (f : File β) {pos : Nat} {bs : List β} (hP : 0 < P)
    (hlen : pos % P + bs.length ≤ P) (n : Nat) :
    get P z (store P z f (pos / P) (pos % P) bs) n =
      if pos ≤ n then (bs[n - pos]?).getD (get P z f n) else get P z f n := by
  have hpos := Nat.div_add_mod pos P
  have hn := Nat.div_add_mod n P
  have hmod := Nat.mod_lt n hP
  rw [get_eq_page, get_eq_page]
  by_cases hpage : n / P = pos / P
  · have hsub : n % P - pos % P = n - pos := by rw [hpage] at hn; omega
    have hle : pos % P ≤ n % P ↔ pos ≤ n := by rw [hpage] at hn; omega
    simp only [page, store, hpage, if_true, Option.getD_some, hle, hsub]
  · simp only [page, store, hpage, if_false]
    split
    · next h =>
        -- the position lies on a later page, past the end of the list
        have hlt : pos / P + 1 ≤ n / P := by
          have := Nat.div_le_div_right (c := P) h
          omega
        have := Nat.mul_le_mul_left P hlt
        rw [Nat.mul_add] at this
        rw [List.getElem?_eq_none (by omega), Option.getD_none]
    · rfl

/-- **The loop stores the list at `pos`** and leaves the rest alone. -/
theorem get_write (hP : 0 < P) {fuel : Nat} (f : File β) (pos : Nat) {bs : List β}
    (hfuel : bs.length ≤ fuel) (n : Nat) :
    get P z (write P z fuel f pos bs) n =
      if pos ≤ n then (bs[n - pos]?).getD (get P z f n) else get P z f n := by
  induction fuel generalizing f pos bs with
  | zero =>
      have : bs = [] := List.eq_nil_of_length_eq_zero (by omega)
      simp [write, this]
  | succ fuel ih =>
      have hmod := Nat.mod_lt pos hP
      simp only [write]
      split
      · next h => simp [h]
      · next h =>
          have hpos := List.length_pos_iff.mpr h
          rw [ih _ _ (by rw [List.length_drop]; omega), get_store _ hP (by simp; omega)]
          by_cases h₁ : pos ≤ n
          · by_cases h₂ : pos + min (P - pos % P) bs.length ≤ n
            · rw [if_pos h₁, if_pos h₁, if_pos h₂, List.getElem?_drop, List.getElem?_take,
                if_neg (by omega), Option.getD_none]
              congr 2
              omega
            · rw [if_pos h₁, if_pos h₁, if_neg h₂, List.getElem?_take, if_pos (by omega)]
          · rw [if_neg h₁, if_neg (by omega), if_neg h₁]

/-- The file grows to the end of what was stored. -/
theorem size_write (hP : 0 < P) {fuel : Nat} (f : File β) (pos : Nat) {bs : List β}
    (hfuel : bs.length ≤ fuel) :
    (write P z fuel f pos bs).size = if bs = [] then f.size else max f.size (pos + bs.length) := by
  induction fuel generalizing f pos bs with
  | zero =>
      have : bs = [] := List.eq_nil_of_length_eq_zero (by omega)
      simp [write, this]
  | succ fuel ih =>
      have hmod := Nat.mod_lt pos hP
      have hdiv := Nat.div_add_mod pos P
      have hcomm := Nat.mul_comm (pos / P) P
      simp only [write]
      split
      · rfl
      · next h =>
          have hpos := List.length_pos_iff.mpr h
          rw [ih _ _ (by rw [List.length_drop]; omega)]
          simp only [store, List.length_take, List.length_drop, List.drop_eq_nil_iff]
          split <;> omega

/-- Two files that read alike hold the same. -/
theorem contents_congr {g : File β} (hsize : f.size = g.size)
    (hget : ∀ n, get P z f n = get P z g n) : contents P z f = contents P z g := by
  unfold contents
  rw [hsize]
  exact List.map_congr_left fun n _ => hget n

/-- A list stored at the start of a file replaces as much of its contents. -/
theorem contents_splice {g : File β} {bs : List β} (hsize : g.size = max f.size bs.length)
    (hget : ∀ n, get P z g n = (bs[n]?).getD (get P z f n)) :
    contents P z g = bs ++ (contents P z f).drop bs.length := by
  apply List.ext_getElem?
  intro n
  by_cases hn : n < bs.length
  · rw [List.getElem?_append_left hn]
    simp [contents, hget, hsize, hn]
  · rw [List.getElem?_append_right (by omega), List.getElem?_drop]
    by_cases hf : n < f.size
    · have hidx : bs.length + (n - bs.length) = n := by omega
      simp [contents, hget, hsize, hidx, hf, List.getElem?_eq_none (Nat.le_of_not_lt hn)]
    · rw [List.getElem?_eq_none (by simp [contents, hsize]; omega),
        List.getElem?_eq_none (by simp [contents]; omega)]

@[simp] theorem length_contents : (contents P z f).length = f.size := by simp [contents]

/-- A range of the contents, cut off at their end. -/
theorem take_drop_contents (pos count : Nat) :
    ((contents P z f).drop pos).take count =
      (List.range (min count (f.size - pos))).map fun k => get P z f (pos + k) := by
  apply List.ext_getElem
  · simp
  · intro k h₁ h₂
    simp [contents]

end Laws

end Paged
