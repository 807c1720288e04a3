import Mathlib.Data.List.Perm.Basic
import Wjfs.Table

/-!
# Wjfs.Table.Laws

The mapping table as the list of its used entries.  Which slot an entry sits
in only decides which of several matching entries is found first.
-/

namespace Wjfs

namespace Table

variable {t t' : Table} {f : Entry → Entry} {p : Entry → Bool} {es es' : List Entry} {e : Entry}
  {ino inoParent : CInt}

/-- The used entries, in slot order. -/
def live (t : Table) : List Entry := t.entries.filter Entry.used

theorem eq_of_entries (h : t.entries = t'.entries) : t = t' := by
  cases t
  cases t'
  cases h
  rfl

@[simp] theorem live_clear : t.clear.live = [] := by
  simp [live, clear, List.filter_map, Function.comp_def]

/-! ## the loops -/

theorem findUsed_eq (p : Entry → Bool) (es : List Entry) :
    findUsed p es = (es.filter Entry.used).find? p := by
  induction es with
  | nil => rfl
  | cons e es ih =>
      unfold findUsed
      cases hu : e.used <;> cases hp : p e <;> simp [hu, hp, ih]

/-- The loop of `rdma_create` stops at the first entry that is not used. -/
theorem fillFirst_eq (f : Entry → Entry) (es : List Entry) : fillFirst f es =
    if es.findIdx (fun e => !e.used) < es.length then
      some (es.modify (es.findIdx fun e => !e.used) f)
    else none := by
  induction es with
  | nil => rfl
  | cons e es ih =>
      unfold fillFirst
      cases hu : e.used with
      | true =>
          rw [ih]
          by_cases hlt : es.findIdx (fun e => !e.used) < es.length
          · simp [List.findIdx_cons, hu, hlt]
          · simp [List.findIdx_cons, hu, hlt]
      | false => simp [List.findIdx_cons, hu]

/-- The loop of `rdma_remove` stops at the first used entry that matches. -/
theorem freeFirst_eq (p : Entry → Bool) (es : List Entry) : freeFirst p es =
    es.modify (es.findIdx fun e => e.used && p e) fun e => { e with used := false } := by
  induction es with
  | nil => rfl
  | cons e es ih =>
      unfold freeFirst
      by_cases hup : (e.used && p e) = true
      · simp [List.findIdx_cons, hup]
      · simp [List.findIdx_cons, hup, ih]

/-- Filling the first free entry adds one to the used entries. -/
theorem filter_fillFirst (hf : ∀ e, (f e).used = true) (h : fillFirst f es = some es') :
    ∃ e, (es'.filter Entry.used).Perm (f e :: es.filter Entry.used) := by
  induction es generalizing es' with
  | nil => cases h
  | cons e es ih =>
      unfold fillFirst at h
      cases hu : e.used with
      | true =>
          rw [if_pos hu] at h
          obtain ⟨es₁, h₁, rfl⟩ := Option.map_eq_some_iff.mp h
          obtain ⟨e₀, hperm⟩ := ih h₁
          refine ⟨e₀, ?_⟩
          rw [List.filter_cons_of_pos hu, List.filter_cons_of_pos hu]
          exact (hperm.cons e).trans (List.Perm.swap _ _ _)
      | false =>
          rw [if_neg (by simp [hu])] at h
          cases h
          exact ⟨e, by rw [List.filter_cons_of_pos (hf e), List.filter_cons_of_neg (by simp [hu])]⟩

/-- A search that does not stop at the filled entry ends where it did
before. -/
theorem findUsed_fillFirst (hp : ∀ e, p (f e) = false) (h : fillFirst f es = some es') :
    findUsed p es' = findUsed p es := by
  induction es generalizing es' with
  | nil => cases h
  | cons e es ih =>
      unfold fillFirst at h
      cases hu : e.used with
      | true =>
          rw [if_pos hu] at h
          obtain ⟨es₁, h₁, rfl⟩ := Option.map_eq_some_iff.mp h
          rw [findUsed, findUsed, ih h₁]
      | false =>
          rw [if_neg (by simp [hu])] at h
          cases h
          simp [findUsed, hu, hp]

/-- A search that no other used entry stops ends at the filled one. -/
theorem exists_findUsed_fillFirst (hf : ∀ e, (f e).used = true) (hp : ∀ e, p (f e) = true)
    (hold : ∀ e ∈ es, e.used = true → p e = false) (h : fillFirst f es = some es') :
    ∃ e, findUsed p es' = some (f e) := by
  induction es generalizing es' with
  | nil => cases h
  | cons e es ih =>
      unfold fillFirst at h
      cases hu : e.used with
      | true =>
          rw [if_pos hu] at h
          obtain ⟨es₁, h₁, rfl⟩ := Option.map_eq_some_iff.mp h
          obtain ⟨e₀, he₀⟩ := ih (fun a ha => hold a (List.mem_cons_of_mem e ha)) h₁
          exact ⟨e₀, by simp [findUsed, hold e List.mem_cons_self hu, he₀]⟩
      | false =>
          rw [if_neg (by simp [hu])] at h
          cases h
          exact ⟨e, by simp [findUsed, hf, hp]⟩

/-- There is an entry to fill unless all are used. -/
theorem exists_fillFirst (h : (es.filter Entry.used).length < es.length) :
    ∃ es', fillFirst f es = some es' := by
  induction es with
  | nil => cases h
  | cons e es ih =>
      unfold fillFirst
      cases hu : e.used with
      | true =>
          rw [List.filter_cons_of_pos hu, List.length_cons, List.length_cons] at h
          obtain ⟨es', hes⟩ := ih (by omega)
          exact ⟨e :: es', by rw [if_pos rfl, hes]; rfl⟩
      | false => exact ⟨f e :: es, by rw [if_neg (by simp)]⟩

/-- Freeing an entry takes it from the used entries. -/
theorem filter_freeFirst (h : (es.filter Entry.used).find? p = some e) :
    (es.filter Entry.used).Perm (e :: (freeFirst p es).filter Entry.used) := by
  induction es with
  | nil => cases h
  | cons a es ih =>
      unfold freeFirst
      cases hu : a.used with
      | true =>
          rw [List.filter_cons_of_pos hu] at h ⊢
          cases hp : p a with
          | true =>
              rw [List.find?_cons_of_pos hp] at h
              cases h
              simp
          | false =>
              rw [List.find?_cons_of_neg (by simp [hp])] at h
              rw [if_neg (by simp), List.filter_cons_of_pos hu]
              exact ((ih h).cons a).trans (List.Perm.swap _ _ _)
      | false =>
          rw [List.filter_cons_of_neg (by simp [hu])] at h ⊢
          rw [if_neg (by simp), List.filter_cons_of_neg (by simp [hu])]
          exact ih h

theorem freeFirst_of_none (h : (es.filter Entry.used).find? p = none) : freeFirst p es = es := by
  induction es with
  | nil => rfl
  | cons a es ih =>
      unfold freeFirst
      cases hu : a.used with
      | true =>
          rw [List.filter_cons_of_pos hu, List.find?_cons] at h
          cases hp : p a with
          | true => simp [hp] at h
          | false =>
              simp only [hp] at h
              simp [ih h]
      | false =>
          rw [List.filter_cons_of_neg (by simp [hu])] at h
          simp [ih h]

/-! ## the operations -/

theorem fillFirst_of_insert (h : t.insert f = .ok t') :
    fillFirst f t.entries = some t'.entries := by
  unfold insert at h
  split at h
  · cases h
  next es hes =>
    cases h
    exact hes

/-- What `rdma_create` does to the used entries. -/
theorem live_insert (hf : ∀ e, (f e).used = true) (h : t.insert f = .ok t') :
    ∃ e, t'.live.Perm (f e :: t.live) := filter_fillFirst hf (fillFirst_of_insert h)

/-- `rdma_create` finds a free entry while there are fewer than 1024 used
ones. -/
theorem exists_insert (h : t.live.length < tableSize) : ∃ t', t.insert f = .ok t' := by
  obtain ⟨es, hes⟩ := exists_fillFirst (f := f) (by rw [t.length_eq]; exact h)
  unfold insert
  split
  next hnone => rw [hnone] at hes; cases hes
  next es' hes' => exact ⟨_, rfl⟩

/-- The index at which the search of `rdma_create` ends, where it then
stores. -/
def slot (t : Table) : Nat := t.entries.findIdx fun e => !e.used

/-- It is an index of the array unless all entries are used. -/
theorem slot_lt_iff : t.slot < tableSize ↔ t.live.length < tableSize := by
  rw [slot, live, ← t.length_eq, List.findIdx_lt_length, List.length_filter_lt_length_iff_exists]
  simp

/-- The stores go to that entry. -/
theorem entries_insert (h : t.insert f = .ok t') :
    t.slot < tableSize ∧ t'.entries = t.entries.modify t.slot f := by
  have hfill := fillFirst_of_insert h
  rw [fillFirst_eq, t.length_eq, ← slot] at hfill
  split at hfill
  next hlt => exact ⟨hlt, (Option.some.inj hfill).symm⟩
  · cases hfill

/-- With no entry left they go past the array. -/
theorem insert_of_full (h : tableSize ≤ t.slot) : t.insert f = .error .outOfBounds := by
  cases hins : t.insert f with
  | ok t' => exact absurd (entries_insert hins).1 (Nat.not_lt_of_le h)
  | error e =>
      unfold insert at hins
      split at hins
      · exact hins.symm
      · cases hins

theorem myIno_eq : t.myIno ino inoParent =
    ((t.live.find? (rdmaMatch ino inoParent)).map Entry.localIno).getD 0 := by
  rw [myIno, findUsed_eq, live]

theorem remote_eq : t.remote ino inoParent =
    ((t.live.find? (localMatch ino inoParent)).map
      fun e => (e.rdmaIno, e.rdmaParentIno)).getD (0, 0) := by
  rw [remote, findUsed_eq, live]

/-- A file is the host's own if no used entry has its number. -/
theorem isMyFile_iff : t.isMyFile ino = true ↔ ∀ e ∈ t.live, e.localIno ≠ ino := by
  rw [isMyFile, findUsed_eq, ← live, Option.isNone_iff_eq_none, List.find?_eq_none]
  simp

/-- What `rdma_remove` does to the used entries. -/
theorem live_release (h : t.live.find? (rdmaMatch ino inoParent) = some e) :
    t.live.Perm (e :: (t.release ino inoParent).live) := filter_freeFirst h

theorem release_of_none (h : t.live.find? (rdmaMatch ino inoParent) = none) :
    (t.release ino inoParent).entries = t.entries := freeFirst_of_none h

/-- Where the search of `rdma_remove` stops. -/
def matchSlot (t : Table) (ino inoParent : CInt) : Nat :=
  t.entries.findIdx fun e => e.used && rdmaMatch ino inoParent e

/-- The flag is cleared there. -/
theorem entries_release : (t.release ino inoParent).entries =
    t.entries.modify (t.matchSlot ino inoParent) fun e => { e with used := false } :=
  freeFirst_eq _ _

/-- If it stops at an entry, that one was used and matched. -/
theorem getElem_matchSlot (h : t.entries[t.matchSlot ino inoParent]? = some e) :
    e.used = true ∧ rdmaMatch ino inoParent e = true := by
  obtain ⟨hlt, rfl⟩ := List.getElem?_eq_some_iff.mp h
  have hmatch : (t.entries[t.matchSlot ino inoParent].used &&
      rdmaMatch ino inoParent t.entries[t.matchSlot ino inoParent]) = true :=
    List.findIdx_getElem (p := fun e : Entry => e.used && rdmaMatch ino inoParent e) (w := hlt)
  simpa using hmatch

/-- And the release frees it. -/
theorem release_matchSlot (hlt : t.matchSlot ino inoParent < tableSize) :
    ∃ e, t.entries[t.matchSlot ino inoParent]? = some e ∧ e.used = true ∧
      (t.release ino inoParent).entries[t.matchSlot ino inoParent]? =
        some { e with used := false } := by
  rw [← t.length_eq] at hlt
  have he := List.getElem?_eq_getElem hlt
  refine ⟨_, he, (getElem_matchSlot he).1, ?_⟩
  rw [entries_release, List.getElem?_modify_eq, he]
  rfl

/-- One used entry is freed at most, and nothing else is changed. -/
def FreesOne (t t' : Table) : Prop :=
  t'.entries = t.entries ∨ ∃ l e r, t.entries = l ++ e :: r ∧ e.used = true ∧
    t'.entries = l ++ { e with used := false } :: r

theorem freesOne_release (t : Table) (ino inoParent : CInt) :
    t.FreesOne (t.release ino inoParent) := by
  by_cases hlt : t.matchSlot ino inoParent < t.entries.length
  · have he := List.getElem?_eq_getElem hlt
    refine .inr ⟨t.entries.take (t.matchSlot ino inoParent), _,
      t.entries.drop (t.matchSlot ino inoParent + 1), ?_, (getElem_matchSlot he).1, ?_⟩
    · rw [List.cons_getElem_drop_succ, List.take_append_drop]
    · rw [entries_release, List.modify_eq_take_cons_drop hlt]
  · exact .inl (entries_release.trans (List.modify_eq_self (Nat.le_of_not_lt hlt)))

end Table

end Wjfs
