import Mathlib.Data.List.Infix

/-!
# Wjfs.FileTree

Trees of files: what calls that make, link, rename and remove names mean, and
directories in memory that have that meaning.

A `FileTree` says which file a path leads to.  A file can have several names, a
directory has one.  `Step` says what a call that succeeds does to the tree.

`Entries` are directories as a program has them: objects with entries that
point to other objects.  What the paths through them lead to is a tree, and a
program that adds an object, takes one out or moves one makes a step of it
(`step_make`, `step_link`, `step_remove`, `step_rename`).
-/

/-- A tree of files: which file a path leads to, and whether that is a
directory. -/
@[ext]
structure FileTree (ν ι : Type*) where
  has : List ν → ι → Bool → Prop
  root : ∃ i, has [] i true
  parent : ∀ {path n i b}, has (path ++ [n]) i b → ∃ j, has path j true
  unique : ∀ {path i j b c}, has path i b → has path j c → i = j ∧ b = c
  kind : ∀ {p q i b c}, has p i b → has q i c → b = c ∧ (b = true → p = q)

namespace FileTree

variable {ν ι : Type*} {T T' : FileTree ν ι}

theorem eq_of_has (h : ∀ path i b, T.has path i b ↔ T'.has path i b) : T = T' := by
  refine FileTree.ext ?_
  funext path i b
  exact propext (h path i b)

/-- The path leads to a directory. -/
def IsDir (T : FileTree ν ι) (path : List ν) : Prop := ∃ i, T.has path i true

/-- The path leads nowhere. -/
def Free (T : FileTree ν ι) (path : List ν) : Prop := ∀ i b, ¬ T.has path i b

/-- Nothing is below the path. -/
def Leaf (T : FileTree ν ι) (path : List ν) : Prop := ∀ n, T.Free (path ++ [n])

/-- A path does not go on below itself. -/
theorem not_longer (path : List ν) (n : ν) : ¬ path ++ [n] <+: path := fun h => by
  have hlen := h.length_le
  rw [List.length_append, List.length_singleton] at hlen
  omega

/-! ## operations -/

/-- The tree with one name more.  If the file has a name already, it is no
directory. -/
def add (T : FileTree ν ι) (path : List ν) (n : ν) (i : ι) (b : Bool) (hdir : T.IsDir path)
    (hfree : T.Free (path ++ [n])) (hfile : ∀ p c, T.has p i c → b = false ∧ c = false) :
    FileTree ν ι where
  has q j c := T.has q j c ∨ q = path ++ [n] ∧ j = i ∧ c = b
  root := T.root.imp fun _ => .inl
  parent := by
    rintro q m j c (h | ⟨hq, rfl, rfl⟩)
    · exact (T.parent h).imp fun _ => .inl
    · obtain ⟨rfl, -⟩ := List.append_inj' hq rfl
      exact hdir.imp fun _ => .inl
  unique := by
    rintro q j k c d (h | ⟨rfl, rfl, rfl⟩) (h' | ⟨hq, rfl, rfl⟩)
    · exact T.unique h h'
    · exact absurd (hq ▸ h) (hfree j c)
    · exact absurd h' (hfree k d)
    · exact ⟨rfl, rfl⟩
  kind := by
    rintro p q j c d (h | ⟨rfl, rfl, rfl⟩) (h' | ⟨rfl, hj, rfl⟩)
    · exact T.kind h h'
    · obtain ⟨rfl, rfl⟩ := hfile p c (hj ▸ h)
      simp
    · obtain ⟨rfl, rfl⟩ := hfile q d h'
      simp
    · exact ⟨rfl, fun _ => rfl⟩

/-- The tree without a name. -/
def remove (T : FileTree ν ι) (path : List ν) (n : ν) (hleaf : T.Leaf (path ++ [n])) :
    FileTree ν ι where
  has q j c := T.has q j c ∧ q ≠ path ++ [n]
  root := T.root.imp fun _ h => ⟨h, by simp⟩
  parent := by
    rintro q m j c ⟨h, -⟩
    refine (T.parent h).imp fun _ hd => ⟨hd, ?_⟩
    rintro rfl
    exact hleaf m j c h
  unique h h' := T.unique h.1 h'.1
  kind h h' := T.kind h.1 h'.1

/-- The tree in which everything at and below the old path is found under the
new one instead. -/
def move (T : FileTree ν ι) (oldPath : List ν) (oldName : ν) (newPath : List ν) (newName : ν)
    (hdir : T.IsDir newPath) (hbelow : ¬ oldPath ++ [oldName] <+: newPath) : FileTree ν ι where
  has q j c := T.has q j c ∧ ¬ oldPath ++ [oldName] <+: q ∧ ¬ newPath ++ [newName] <+: q ∨
    ∃ rest, q = newPath ++ [newName] ++ rest ∧ T.has (oldPath ++ [oldName] ++ rest) j c
  root := T.root.imp fun _ h => .inl ⟨h, by simp, by simp⟩
  parent := by
    rintro q m j c (⟨h, hold, hnew⟩ | ⟨rest, hq, h⟩)
    · refine (T.parent h).imp fun _ hd => .inl ⟨hd, fun hp => hold ?_, fun hp => hnew ?_⟩
      · exact hp.trans (List.prefix_append q [m])
      · exact hp.trans (List.prefix_append q [m])
    · rcases List.eq_nil_or_concat' rest with rfl | ⟨rest, l, rfl⟩
      · -- the new name itself, which is in a directory that stays
        rw [List.append_nil] at hq
        obtain ⟨rfl, -⟩ := List.append_inj' hq rfl
        exact hdir.imp fun _ hd => .inl ⟨hd, hbelow, not_longer _ _⟩
      · rw [← List.append_assoc] at hq h
        obtain ⟨rfl, -⟩ := List.append_inj' hq rfl
        exact (T.parent h).imp fun _ hd => .inr ⟨rest, rfl, hd⟩
  unique := by
    rintro q j k c d (⟨h, -, hnew⟩ | ⟨rest, rfl, h⟩) (⟨h', -, hnew'⟩ | ⟨rest', hq, h'⟩)
    · exact T.unique h h'
    · exact absurd ⟨rest', hq.symm⟩ hnew
    · exact absurd (List.prefix_append _ rest) hnew'
    · obtain rfl := List.append_cancel_left hq
      exact T.unique h h'
  kind := by
    rintro p q j c d (⟨h, hold, -⟩ | ⟨rest, rfl, h⟩) (⟨h', hold', -⟩ | ⟨rest', rfl, h'⟩)
    · exact T.kind h h'
    · refine (T.kind h h').imp_right fun hp hc => absurd ?_ hold
      exact hp hc ▸ List.prefix_append _ rest'
    · refine (T.kind h h').imp_right fun hp hc => absurd ?_ hold'
      exact (hp hc).symm ▸ List.prefix_append _ rest
    · refine (T.kind h h').imp_right fun hp hc => ?_
      rw [List.append_cancel_left (hp hc)]

/-! ## calls -/

/-- What a call asks for. -/
inductive Call (ν : Type*) where
  | make (path : List ν) (n : ν) (isDir : Bool)
  | link (oldPath : List ν) (oldName : ν) (path : List ν) (n : ν)
  | rename (oldPath : List ν) (oldName : ν) (newPath : List ν) (newName : ν)
  | remove (path : List ν) (n : ν) (isDir : Bool)

/-- What a call does that succeeds.  A new file has no other name, a link is a
second name for a file that is no directory, and a rename between two names of
one file does nothing.  What is in the way of another rename is of the same
kind and has nothing below it. -/
inductive Step (T : FileTree ν ι) : Call ν → FileTree ν ι → Prop
  | make {path : List ν} {n : ν} {i : ι} {b : Bool} (hdir : T.IsDir path)
      (hfree : T.Free (path ++ [n])) (hnew : ∀ p c, ¬ T.has p i c) :
      Step T (.make path n b) (T.add path n i b hdir hfree fun p c h => absurd h (hnew p c))
  | link {oldPath : List ν} {oldName : ν} {path : List ν} {n : ν} {i : ι} (hdir : T.IsDir path)
      (hfree : T.Free (path ++ [n])) (hold : T.has (oldPath ++ [oldName]) i false) :
      Step T (.link oldPath oldName path n) (T.add path n i false hdir hfree fun _ _ h =>
        ⟨rfl, (T.kind hold h).1.symm⟩)
  | same {oldPath : List ν} {oldName : ν} {newPath : List ν} {newName : ν} {i : ι} {b : Bool} :
      T.has (oldPath ++ [oldName]) i b → T.has (newPath ++ [newName]) i b →
      Step T (.rename oldPath oldName newPath newName) T
  | rename {oldPath : List ν} {oldName : ν} {newPath : List ν} {newName : ν} {i : ι} {b : Bool}
      (hold : T.has (oldPath ++ [oldName]) i b) (hdir : T.IsDir newPath)
      (hbelow : ¬ oldPath ++ [oldName] <+: newPath)
      (htarget : ∀ j c, T.has (newPath ++ [newName]) j c → j ≠ i ∧ c = b)
      (hleaf : T.Leaf (newPath ++ [newName])) :
      Step T (.rename oldPath oldName newPath newName)
        (T.move oldPath oldName newPath newName hdir hbelow)
  | remove {path : List ν} {n : ν} {i : ι} {b : Bool} (hfile : T.has (path ++ [n]) i b)
      (hleaf : T.Leaf (path ++ [n])) : Step T (.remove path n b) (T.remove path n hleaf)

/-- What paths there are once a file was made. -/
theorem Step.make_iff {path q : List ν} {n : ν} {b c : Bool} (hs : T.Step (.make path n b) T') :
    (∃ i, T'.has q i c) ↔ (∃ i, T.has q i c) ∨ q = path ++ [n] ∧ c = b := by
  cases hs with
  | @make _ _ i _ hdir hfree hnew =>
      constructor
      · rintro ⟨j, h | ⟨hq, -, hc⟩⟩
        · exact .inl ⟨j, h⟩
        · exact .inr ⟨hq, hc⟩
      · rintro (⟨j, h⟩ | ⟨hq, hc⟩)
        · exact ⟨j, .inl h⟩
        · exact ⟨i, .inr ⟨hq, rfl, hc⟩⟩

theorem Step.free_of_make {path : List ν} {n : ν} {b : Bool} (hs : T.Step (.make path n b) T') :
    T.Free (path ++ [n]) := by
  cases hs with
  | make hdir hfree hnew => exact hfree

/-! ## directories in memory -/

/-- Objects with directory entries: `entry p n k` if directory `p` has the entry
`n` for object `k`, and `file k i b` if object `k` is a name of the file `i`,
which is a directory or not. -/
structure Entries (κ ν ι : Type*) where
  root : κ
  entry : κ → ν → κ → Prop
  file : κ → ι → Bool → Prop
  entry_unique : ∀ {p n k l}, entry p n k → entry p n l → k = l
  place : ∀ {p q n m k}, entry p n k → entry q m k → p = q ∧ n = m
  top : ∀ {p n}, ¬ entry p n root
  exists_file : ∀ {p n k}, entry p n k → ∃ i b, file k i b
  root_dir : ∃ i, file root i true
  dir : ∀ {p n k}, entry p n k → ∃ i, file p i true
  file_unique : ∀ {k i j b c}, file k i b → file k j c → i = j ∧ b = c
  kind : ∀ {k l i b c}, file k i b → file l i c → b = c ∧ (b = true → k = l)

namespace Entries

variable {κ : Type*} {L L' : Entries κ ν ι} {path p q : List ν} {n m : ν} {i j : ι} {b c : Bool}
  {d k l x : κ}

/-- The object that a path leads to. -/
inductive Path (L : Entries κ ν ι) : List ν → κ → Prop
  | root : Path L [] L.root
  | child {path : List ν} {p k : κ} {n : ν} :
      Path L path p → L.entry p n k → Path L (path ++ [n]) k

namespace Path

theorem nil_inv (h : L.Path [] k) : k = L.root := by
  generalize hp : ([] : List ν) = p at h
  cases h with
  | root => rfl
  | child => simp at hp

theorem snoc_inv (h : L.Path (path ++ [n]) k) : ∃ d, L.Path path d ∧ L.entry d n k := by
  generalize hp : path ++ [n] = p at h
  cases h with
  | root => simp at hp
  | @child path' d _ m hd he =>
      obtain ⟨rfl, hn⟩ := List.append_inj' hp rfl
      obtain rfl := List.singleton_injective hn
      exact ⟨d, hd, he⟩

/-- A path leads to one object. -/
theorem unique (h : L.Path path k) (h' : L.Path path l) : k = l := by
  induction h generalizing l with
  | root => exact (nil_inv h').symm
  | child _ he ih =>
      obtain ⟨d, hd, he'⟩ := snoc_inv h'
      obtain rfl := ih hd
      exact L.entry_unique he he'

/-- An object has one path. -/
theorem path_unique (h : L.Path p k) (h' : L.Path q k) : p = q := by
  induction h generalizing q with
  | root =>
      cases h' with
      | root => rfl
      | child _ he => exact absurd he L.top
  | child _ he ih =>
      cases h' with
      | root => exact absurd he L.top
      | child hd he' =>
          obtain ⟨rfl, rfl⟩ := L.place he he'
          rw [ih hd]

/-- A path leads to a file. -/
theorem exists_file (h : L.Path path k) : ∃ i b, L.file k i b := by
  cases h with
  | root =>
      obtain ⟨i, hi⟩ := L.root_dir
      exact ⟨i, true, hi⟩
  | child _ he => exact L.exists_file he

/-- The path of an entry. -/
theorem eq_snoc (h : L.Path path k) (hd : L.Path p d) (he : L.entry d n k) : path = p ++ [n] :=
  h.path_unique (.child hd he)

end Path

/-- The tree that the entries stand for. -/
def tree (L : Entries κ ν ι) : FileTree ν ι where
  has path i b := ∃ k, L.Path path k ∧ L.file k i b
  root := L.root_dir.imp fun _ h => ⟨_, .root, h⟩
  parent := by
    rintro path n i b ⟨k, hk, -⟩
    obtain ⟨d, hd, he⟩ := hk.snoc_inv
    exact (L.dir he).imp fun _ h => ⟨d, hd, h⟩
  unique := by
    rintro path i j b c ⟨k, hk, hi⟩ ⟨l, hl, hj⟩
    obtain rfl := hk.unique hl
    exact L.file_unique hi hj
  kind := by
    rintro p q i b c ⟨k, hk, hi⟩ ⟨l, hl, hj⟩
    refine (L.kind hi hj).imp_right fun heq hb => ?_
    obtain rfl := heq hb
    exact hk.path_unique hl

/-! ## one object more -/

/-- `L'` has one object more than `L`: `x`, which directory `d` has under the
name `n`. -/
structure Grows (L L' : Entries κ ν ι) (d : κ) (n : ν) (x : κ) (i : ι) (b : Bool) : Prop where
  root : L'.root = L.root
  entry : ∀ p m k, L'.entry p m k ↔ L.entry p m k ∨ p = d ∧ m = n ∧ k = x
  file : ∀ k j c, L'.file k j c ↔ L.file k j c ∨ k = x ∧ j = i ∧ c = b
  fresh : ∀ j c, ¬ L.file x j c

namespace Grows

variable (hg : Grows L L' d n x i b)
include hg

theorem path_mono (h : L.Path path k) : L'.Path path k := by
  induction h with
  | root => exact hg.root ▸ .root
  | child _ he ih => exact .child ih ((hg.entry ..).mpr (.inl he))

theorem ne_of_path (h : L.Path path k) : k ≠ x := by
  rintro rfl
  obtain ⟨j, c, hj⟩ := h.exists_file
  exact hg.fresh j c hj

/-- Where the paths lead that there are then. -/
theorem path_iff : L'.Path path k ↔
    L.Path path k ∨ k = x ∧ ∃ p, L.Path p d ∧ path = p ++ [n] := by
  constructor
  · intro h
    induction h with
    | root => exact .inl (hg.root ▸ .root)
    | @child path p k m _ he ih =>
        rcases (hg.entry ..).mp he with he | ⟨rfl, rfl, rfl⟩
        · rcases ih with ih | ⟨rfl, -⟩
          · exact .inl (.child ih he)
          · -- the new object has no entries
            obtain ⟨j, hj⟩ := L.dir he
            exact absurd hj (hg.fresh j true)
        · rcases ih with ih | ⟨rfl, p', hp', -⟩
          · exact .inr ⟨rfl, path, ih, rfl⟩
          · exact absurd rfl (hg.ne_of_path hp')
  · rintro (h | ⟨rfl, p, hp, rfl⟩)
    · exact hg.path_mono h
    · exact .child (hg.path_mono hp) ((hg.entry ..).mpr (.inr ⟨rfl, rfl, rfl⟩))

theorem has_iff (hd : L.Path p d) : L'.tree.has q j c ↔
    L.tree.has q j c ∨ q = p ++ [n] ∧ j = i ∧ c = b := by
  constructor
  · rintro ⟨k, hk, hj⟩
    rcases hg.path_iff.mp hk with hk | ⟨rfl, p', hp', rfl⟩
    · rcases (hg.file ..).mp hj with hj | ⟨rfl, -⟩
      · exact .inl ⟨k, hk, hj⟩
      · exact absurd rfl (hg.ne_of_path hk)
    · rcases (hg.file ..).mp hj with hj | ⟨-, rfl, rfl⟩
      · exact absurd hj (hg.fresh j c)
      · exact .inr ⟨by rw [hp'.path_unique hd], rfl, rfl⟩
  · rintro (⟨k, hk, hj⟩ | ⟨rfl, rfl, rfl⟩)
    · exact ⟨k, hg.path_mono hk, (hg.file ..).mpr (.inl hj)⟩
    · exact ⟨x, hg.path_iff.mpr (.inr ⟨rfl, p, hd, rfl⟩), (hg.file ..).mpr (.inr ⟨rfl, rfl, rfl⟩)⟩

theorem isDir (hd : L.Path p d) : L.tree.IsDir p := by
  obtain ⟨j, hj⟩ := L'.dir ((hg.entry d n x).mpr (.inr ⟨rfl, rfl, rfl⟩))
  rcases (hg.file ..).mp hj with hj | ⟨rfl, -⟩
  · exact ⟨j, d, hd, hj⟩
  · exact absurd rfl (hg.ne_of_path hd)

theorem free (hd : L.Path p d) : L.tree.Free (p ++ [n]) := by
  rintro j c ⟨k, hk, -⟩
  obtain ⟨d', hd', he⟩ := hk.snoc_inv
  obtain rfl := hd'.unique hd
  obtain rfl := L'.entry_unique ((hg.entry ..).mpr (.inl he))
    ((hg.entry d' n x).mpr (.inr ⟨rfl, rfl, rfl⟩))
  exact hg.ne_of_path hk rfl

/-- A program that puts a new file into a directory makes it. -/
theorem step_make (hd : L.Path p d) (hnew : ∀ k c, ¬ L.file k i c) :
    L.tree.Step (.make p n b) L'.tree := by
  have hnone : ∀ q c, ¬ L.tree.has q i c := fun q c ⟨k, _, hk⟩ => hnew k c hk
  rw [show L'.tree = L.tree.add p n i b (hg.isDir hd) (hg.free hd)
    (fun q c h => absurd h (hnone q c)) from eq_of_has fun _ _ _ => hg.has_iff hd]
  exact .make _ _ hnone

/-- One that puts a file into a directory that has a name already links it. -/
theorem step_link {oldPath : List ν} {oldName : ν} (hd : L.Path p d) (hb : b = false)
    (hold : L.tree.has (oldPath ++ [oldName]) i false) :
    L.tree.Step (.link oldPath oldName p n) L'.tree := by
  subst hb
  rw [show L'.tree = L.tree.add p n i false (hg.isDir hd) (hg.free hd)
    (fun _ _ h => ⟨rfl, (L.tree.kind hold h).1.symm⟩) from eq_of_has fun _ _ _ => hg.has_iff hd]
  exact .link _ _ hold

end Grows

/-- And one that takes out an object without entries removes its name. -/
theorem Grows.step_remove (hg : Grows L' L d n x i b) (hd : L.Path p d) :
    L.tree.Step (.remove p n b) L'.tree := by
  have hd' : L'.Path p d := (hg.path_iff.mp hd).resolve_right fun ⟨hx, _, hp, _⟩ =>
    hg.ne_of_path hp hx
  have hfree := hg.free hd'
  have hleaf : L.tree.Leaf (p ++ [n]) := by
    intro m j c h
    rcases (hg.has_iff hd').mp h with h | ⟨hq, -⟩
    · obtain ⟨j, hj⟩ := L'.tree.parent h
      exact hfree j true hj
    · simp at hq
  rw [show L'.tree = L.tree.remove p n hleaf from eq_of_has fun q j c => by
    simp only [FileTree.remove, hg.has_iff hd']
    constructor
    · intro h
      refine ⟨.inl h, ?_⟩
      rintro rfl
      exact hfree j c h
    · rintro ⟨h | ⟨rfl, -⟩, hne⟩
      · exact h
      · exact absurd rfl hne]
  exact .remove ((hg.has_iff hd').mpr (.inr ⟨rfl, rfl, rfl⟩)) hleaf

/-! ## one object elsewhere -/

/-- In `L'` the object `x` of directory `d` is in directory `e` under the name
`n`, and what had that name is gone. -/
structure Moves (L L' : Entries κ ν ι) (d : κ) (m : ν) (e : κ) (n : ν) (x : κ) : Prop where
  root : L'.root = L.root
  old : L.entry d m x
  entry : ∀ p l k, L'.entry p l k ↔
    L.entry p l k ∧ k ≠ x ∧ ¬ L.entry e n k ∨ p = e ∧ l = n ∧ k = x
  file : ∀ k j c, L'.file k j c ↔ L.file k j c ∧ ¬ L.entry e n k
  apart : ¬ L.entry e n x
  leaf : ∀ k, L.entry e n k → ∀ l y, ¬ L.entry k l y

namespace Moves

variable {e : κ} (hm : Moves L L' d m e n x) (hd : L.Path p d) (he : L.Path q e)
  (hbelow : ¬ p ++ [m] <+: q)
include hm hd he hbelow

omit hbelow in
/-- Paths that go through neither name stay. -/
theorem path_stays (h : L.Path path k) (hold : ¬ p ++ [m] <+: path) (hnew : ¬ q ++ [n] <+: path) :
    L'.Path path k := by
  induction h with
  | root => exact hm.root ▸ .root
  | @child path c k l hc hent ih =>
      have hpre := List.prefix_append path [l]
      refine .child (ih (fun h => hold (h.trans hpre)) fun h => hnew (h.trans hpre))
        ((hm.entry ..).mpr (.inl ⟨hent, ?_, fun htarget => hnew ?_⟩))
      · rintro rfl
        exact hold ((Path.child hc hent).eq_snoc hd hm.old ▸ List.prefix_refl _)
      · exact (Path.child hc hent).eq_snoc he htarget ▸ List.prefix_refl _

/-- Paths that go through the old name go through the new one. -/
theorem path_moves {rest : List ν} (h : L.Path (p ++ [m] ++ rest) k) :
    L'.Path (q ++ [n] ++ rest) k := by
  induction rest using List.reverseRecOn generalizing k with
  | nil =>
      rw [List.append_nil] at h ⊢
      obtain rfl := h.unique (.child hd hm.old)
      exact .child (hm.path_stays hd he he hbelow (not_longer q n))
        ((hm.entry ..).mpr (.inr ⟨rfl, rfl, rfl⟩))
  | append_singleton rest l ih =>
      rw [← List.append_assoc] at h ⊢
      obtain ⟨c, hc, hent⟩ := h.snoc_inv
      refine .child (ih hc) ((hm.entry ..).mpr (.inl ⟨hent, ?_, fun htarget => ?_⟩))
      · -- the object is not below itself
        rintro rfl
        have hlen := congrArg List.length (h.eq_snoc hd hm.old)
        simp at hlen
      · obtain ⟨rfl, -⟩ := L.place hent htarget
        exact hbelow (hc.path_unique he ▸ List.prefix_append _ rest)

/-- Where the paths lead that there are then. -/
theorem path_iff : L'.Path path k ↔
    L.Path path k ∧ ¬ p ++ [m] <+: path ∧ ¬ q ++ [n] <+: path ∨
      ∃ rest, path = q ++ [n] ++ rest ∧ L.Path (p ++ [m] ++ rest) k := by
  constructor
  · intro h
    induction h with
    | root => exact .inl ⟨hm.root ▸ .root, by simp, by simp⟩
    | @child path c k l _ hent ih =>
        rcases (hm.entry ..).mp hent with ⟨hent, hx, htarget⟩ | ⟨rfl, rfl, rfl⟩
        · rcases ih with ⟨hc, hold, hnew⟩ | ⟨rest, rfl, hc⟩
          · refine .inl ⟨.child hc hent, fun h => ?_, fun h => ?_⟩
            · rcases List.prefix_concat_iff.mp h with h | h
              · exact hx ((Path.child hc hent).unique (h ▸ .child hd hm.old))
              · exact hold h
            · rcases List.prefix_concat_iff.mp h with h | h
              · obtain ⟨rfl, hl⟩ := List.append_inj' h rfl
                obtain rfl := List.singleton_injective hl
                exact htarget (hc.unique he ▸ hent)
              · exact hnew h
          · refine .inr ⟨rest ++ [l], by simp, ?_⟩
            rw [← List.append_assoc]
            exact .child hc hent
        · rcases ih with ⟨hc, -, -⟩ | ⟨rest, -, hc⟩
          · refine .inr ⟨[], by rw [hc.path_unique he, List.append_nil], ?_⟩
            rw [List.append_nil]
            exact .child hd hm.old
          · exact absurd (hc.path_unique he ▸ List.prefix_append _ rest) hbelow
  · rintro (⟨h, hold, hnew⟩ | ⟨rest, rfl, h⟩)
    · exact hm.path_stays hd he h hold hnew
    · exact hm.path_moves hd he hbelow h

theorem has_iff : L'.tree.has path j c ↔
    L.tree.has path j c ∧ ¬ p ++ [m] <+: path ∧ ¬ q ++ [n] <+: path ∨
      ∃ rest, path = q ++ [n] ++ rest ∧ L.tree.has (p ++ [m] ++ rest) j c := by
  constructor
  · rintro ⟨k, hk, hj⟩
    have hj := ((hm.file ..).mp hj).1
    rcases (hm.path_iff hd he hbelow).mp hk with ⟨hk, hold, hnew⟩ | ⟨rest, rfl, hk'⟩
    · exact .inl ⟨⟨k, hk, hj⟩, hold, hnew⟩
    · exact .inr ⟨rest, rfl, k, hk', hj⟩
  · rintro (⟨⟨k, hk, hj⟩, hold, hnew⟩ | ⟨rest, rfl, k, hk, hj⟩)
    · refine ⟨k, hm.path_stays hd he hk hold hnew, (hm.file ..).mpr ⟨hj, fun ht => hnew ?_⟩⟩
      exact hk.eq_snoc he ht ▸ List.prefix_refl _
    · refine ⟨k, hm.path_moves hd he hbelow hk, (hm.file ..).mpr ⟨hj, fun ht => ?_⟩⟩
      rcases List.eq_nil_or_concat' rest with rfl | ⟨rest, l, rfl⟩
      · rw [List.append_nil] at hk
        exact hm.apart (hk.unique (.child hd hm.old) ▸ ht)
      · have heq := hk.eq_snoc he ht
        rw [← List.append_assoc] at heq
        obtain ⟨rfl, -⟩ := List.append_inj' heq rfl
        exact hbelow (List.prefix_append _ rest)

/-- A program that moves an object renames it. -/
theorem step_rename (hfile : L.file x i b)
    (htarget : ∀ k j c, L.entry e n k → L.file k j c → j ≠ i ∧ c = b) :
    L.tree.Step (.rename p m q n) L'.tree := by
  have hdir : L.tree.IsDir q := by
    obtain ⟨j, hj⟩ := L'.dir ((hm.entry e n x).mpr (.inr ⟨rfl, rfl, rfl⟩))
    exact ⟨j, e, he, ((hm.file ..).mp hj).1⟩
  have hleaf : L.tree.Leaf (q ++ [n]) := by
    rintro l j c ⟨k, hk, -⟩
    obtain ⟨t, ht, hent⟩ := hk.snoc_inv
    obtain ⟨e', he', htar⟩ := ht.snoc_inv
    obtain rfl := he'.unique he
    exact hm.leaf t htar l k hent
  rw [show L'.tree = L.tree.move p m q n hdir hbelow from
    eq_of_has fun _ _ _ => hm.has_iff hd he hbelow]
  have hold : L.tree.has (p ++ [m]) i b := ⟨x, .child hd hm.old, hfile⟩
  refine .rename hold hdir hbelow ?_ hleaf
  rintro j c ⟨k, hk, hj⟩
  obtain ⟨e', he', htar⟩ := hk.snoc_inv
  obtain rfl := he'.unique he
  exact htarget k j c htar hj

end Moves

end Entries

end FileTree
