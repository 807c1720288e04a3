import Mathlib.Data.Set.Insert
import Mathlib.Logic.Function.Basic

/-!
# Wjfs.Replica

Two sites that keep one tree of named files.

Each site makes and drops files of its own and tells the other one, which
handles the messages in the order they were sent: it adds a copy, or deletes
one.  The tree of a site is its own files and its copies.  Nothing is locked,
so a site's copies lag behind what the other has done.

`Inv` is what keeps the two together: handling all messages that are under way
would leave the receiver with copies of exactly the sender's own files, and
each of them will find what it needs.  It is kept as long as a site makes a
file only if the name is free in its tree and not announced to it, and its
directory not about to go (`CanMake`), and drops a directory only if it is
empty and no file was announced to it that belongs there (`CanDrop`).
-/

namespace Replica

/-- A file: its name, the name of its directory, whether it is a directory, and
what its owner calls it. -/
@[ext] structure File (ν ι : Type*) where
  name : ν
  parent : ν
  isDir : Bool
  id : ι

/-- What a site tells the other: there is a file more, or one less. -/
inductive Msg (ν ι : Type*) where
  | add (f : File ν ι)
  | del (f : File ν ι)

variable {ν ι : Type*}

/-- The file that a message is about. -/
def Msg.file : Msg ν ι → File ν ι
  | .add f | .del f => f

/-! ## messages under way -/

/-- The copies after a message. -/
def apply (L : Set (File ν ι)) : Msg ν ι → Set (File ν ι)
  | .add f => insert f L
  | .del f => L \ {f}

/-- The copies after messages. -/
def replay (L : Set (File ν ι)) (q : List (Msg ν ι)) : Set (File ν ι) := q.foldl apply L

/-- A site with own files `P` and copies `L` can add a copy of `f`: neither the
name nor what the owner calls it is taken, and the directory is there. -/
structure Addable (root : ν) (P L : Set (File ν ι)) (f : File ν ι) : Prop where
  name : ∀ g ∈ P ∪ L, g.name ≠ f.name
  id : ∀ g ∈ L, g.id ≠ f.id
  parent : f.parent = root ∨ ∃ p ∈ P ∪ L, p.isDir = true ∧ p.name = f.parent

/-- It can delete its copy of `f`: it has one, and nothing is in it. -/
structure Deletable (P L : Set (File ν ι)) (f : File ν ι) : Prop where
  mem : f ∈ L
  empty : f.isDir = true → ∀ g ∈ P ∪ L, g.parent ≠ f.name

/-- The site can do what a message says. -/
def Fits (root : ν) (P L : Set (File ν ι)) : Msg ν ι → Prop
  | .add f => Addable root P L f
  | .del f => Deletable P L f

/-- The site can do what the messages say, one after the other. -/
def Legal (root : ν) (P : Set (File ν ι)) : Set (File ν ι) → List (Msg ν ι) → Prop
  | _, [] => True
  | L, m :: q => Fits root P L m ∧ Legal root P (apply L m) q

variable {root : ν} {P L : Set (File ν ι)} {f g : File ν ι} {m : Msg ν ι} {q : List (Msg ν ι)}

theorem replay_concat : replay L (q ++ [m]) = apply (replay L q) m := by
  simp [replay]

theorem legal_concat :
    Legal root P L (q ++ [m]) ↔ Legal root P L q ∧ Fits root P (replay L q) m := by
  induction q generalizing L with
  | nil => simp [Legal, replay]
  | cons a q ih => simp [Legal, ih, replay, and_assoc]

/-- A copy that will be there is there, or announced. -/
theorem mem_or_add_of_mem_replay (hf : f ∈ replay L q) : f ∈ L ∨ .add f ∈ q := by
  induction q generalizing L with
  | nil => exact .inl hf
  | cons a q ih =>
      rcases ih hf with hmem | hadd
      · cases a with
        | add g =>
            rcases hmem with rfl | hmem
            · exact .inr List.mem_cons_self
            · exact .inl hmem
        | del g => exact .inl hmem.1
      · exact .inr (List.mem_cons_of_mem a hadd)

/-- A copy that is there stays, unless it is to be deleted. -/
theorem mem_replay_of_mem (hf : f ∈ L) (hdel : .del f ∉ q) : f ∈ replay L q := by
  induction q generalizing L with
  | nil => exact hf
  | cons a q ih =>
      refine ih ?_ fun hmem => hdel (List.mem_cons_of_mem a hmem)
      cases a with
      | add g => exact Set.mem_insert_of_mem g hf
      | del g =>
          refine ⟨hf, fun heq => hdel ?_⟩
          rw [Set.mem_singleton_iff.mp heq]
          exact List.mem_cons_self

/-- The receiver may make a file of its own whose name is not announced to it
and whose directory is not to be deleted. -/
theorem Legal.insert (h : Legal root P L q) (hname : ∀ f, .add f ∈ q → f.name ≠ g.name)
    (hparent : ∀ f, .del f ∈ q → f.name ≠ g.parent) : Legal root (insert g P) L q := by
  induction q generalizing L with
  | nil => trivial
  | cons a q ih =>
      refine ⟨?_, ih h.2 (fun f hf => hname f (List.mem_cons_of_mem a hf))
        fun f hf => hparent f (List.mem_cons_of_mem a hf)⟩
      cases a with
      | add f =>
          obtain ⟨hnew, hid, hpar⟩ := h.1
          refine ⟨fun k hk => ?_, hid, hpar.imp_right fun ⟨p, hp, hdir⟩ => ⟨p, ?_, hdir⟩⟩
          · rw [Set.insert_union] at hk
            rcases hk with rfl | hk
            · exact (hname f List.mem_cons_self).symm
            · exact hnew k hk
          · rw [Set.insert_union]
            exact Set.mem_insert_of_mem g hp
      | del f =>
          obtain ⟨hmem, hempty⟩ := h.1
          refine ⟨hmem, fun hdir k hk => ?_⟩
          rw [Set.insert_union] at hk
          rcases hk with rfl | hk
          · exact (hparent f List.mem_cons_self).symm
          · exact hempty hdir k hk

/-- The receiver may drop a file of its own, unless it is a directory for which
a file is announced to it. -/
theorem Legal.diff (h : Legal root P L q)
    (hparent : g.isDir = true → ∀ f, .add f ∈ q → f.parent ≠ g.name) :
    Legal root (P \ {g}) L q := by
  induction q generalizing L with
  | nil => trivial
  | cons a q ih =>
      have hsub : ∀ {k}, k ∈ P \ {g} ∪ L → k ∈ P ∪ L := fun hk => hk.imp_left And.left
      refine ⟨?_, ih h.2 fun hdir f hf => hparent hdir f (List.mem_cons_of_mem a hf)⟩
      cases a with
      | add f =>
          obtain ⟨hnew, hid, hpar⟩ := h.1
          refine ⟨fun k hk => hnew k (hsub hk), hid, hpar.imp_right ?_⟩
          rintro ⟨p, hp, hdir, hname⟩
          refine ⟨p, hp.imp_left fun hp => ⟨hp, fun heq => ?_⟩, hdir, hname⟩
          rw [Set.mem_singleton_iff] at heq
          subst heq
          exact hparent hdir f List.mem_cons_self hname.symm
      | del f =>
          obtain ⟨hmem, hempty⟩ := h.1
          exact ⟨hmem, fun hdir k hk => hempty hdir k (hsub hk)⟩

/-! ## the two sites -/

/-- The two sites: the files each owns, its copies, and the messages it has sent
that the other has not handled, oldest first. -/
structure State (ν ι : Type*) where
  own : Bool → Set (File ν ι)
  copies : Bool → Set (File ν ι)
  queue : Bool → List (Msg ν ι)

namespace State

variable (S : State ν ι) (s : Bool)

/-- All that a site has. -/
def tree : Set (File ν ι) := S.own s ∪ S.copies s

/-- A site makes a file and announces it. -/
def make (f : File ν ι) : State ν ι where
  own := Function.update S.own s (insert f (S.own s))
  copies := S.copies
  queue := Function.update S.queue s (S.queue s ++ [.add f])

/-- A site drops a file and says so. -/
def drop (f : File ν ι) : State ν ι where
  own := Function.update S.own s (S.own s \ {f})
  copies := S.copies
  queue := Function.update S.queue s (S.queue s ++ [.del f])

/-- The other site handles the message `m`, after which those in `q` are left. -/
def deliver (m : Msg ν ι) (q : List (Msg ν ι)) : State ν ι where
  own := S.own
  copies := Function.update S.copies (!s) (apply (S.copies (!s)) m)
  queue := Function.update S.queue s q

/-- What a site has to know before it makes a file. -/
structure CanMake (root : ν) (f : File ν ι) : Prop where
  name : ∀ g ∈ S.tree s, g.name ≠ f.name
  id : ∀ g ∈ S.own s, g.id ≠ f.id
  parent : f.parent = root ∨ ∃ p ∈ S.tree s, p.isDir = true ∧ p.name = f.parent
  unannounced : ∀ g, .add g ∈ S.queue (!s) → g.name ≠ f.name
  stays : ∀ g, .del g ∈ S.queue (!s) → g.name ≠ f.parent

/-- What a site has to know before it drops one. -/
structure CanDrop (f : File ν ι) : Prop where
  mem : f ∈ S.own s
  empty : f.isDir = true → ∀ g ∈ S.tree s, g.parent ≠ f.name
  unwanted : f.isDir = true → ∀ g, .add g ∈ S.queue (!s) → g.parent ≠ f.name

/-- The messages under way lead from the copies that are there to the files
that the sender owns, and each finds what it needs. -/
structure Inv (root : ν) : Prop where
  replay : ∀ s, replay (S.copies (!s)) (S.queue s) = S.own s
  legal : ∀ s, Legal root (S.own (!s)) (S.copies (!s)) (S.queue s)

end State

namespace State.Inv

variable {S : State ν ι} {s : Bool}

/-- Nothing is there yet. -/
theorem empty : (⟨fun _ => ∅, fun _ => ∅, fun _ => []⟩ : State ν ι).Inv root :=
  ⟨fun _ => rfl, fun _ => trivial⟩

/-- What the other site owns is a copy, or announced. -/
theorem mem_copies_or_add (hi : S.Inv root) (hg : g ∈ S.own (!s)) :
    g ∈ S.copies s ∨ .add g ∈ S.queue (!s) := by
  rw [← hi.replay (!s), Bool.not_not] at hg
  exact mem_or_add_of_mem_replay hg

/-- A copy that is not to be deleted is owned by the other site. -/
theorem mem_own_of_copies (hi : S.Inv root) (hg : g ∈ S.copies s)
    (hdel : .del g ∉ S.queue (!s)) : g ∈ S.own (!s) := by
  rw [← hi.replay (!s), Bool.not_not]
  exact mem_replay_of_mem hg hdel

theorem make (hi : S.Inv root) (hc : S.CanMake s root f) : (S.make s f).Inv root := by
  have hadd : Addable root (S.own (!s)) (S.own s) f := by
    refine ⟨fun g hg => ?_, hc.id, hc.parent.imp_right ?_⟩
    · rcases hg with hg | hg
      · rcases hi.mem_copies_or_add hg with hg | hg
        · exact hc.name g (.inr hg)
        · exact hc.unannounced g hg
      · exact hc.name g (.inl hg)
    · rintro ⟨p, hp | hp, hdir, hname⟩
      · exact ⟨p, .inr hp, hdir, hname⟩
      · exact ⟨p, .inl (hi.mem_own_of_copies hp fun hdel => hc.stays p hdel hname), hdir, hname⟩
  constructor
  · intro r
    by_cases hr : r = s
    · subst hr
      simp [State.make, replay_concat, hi.replay, apply]
    · simp [State.make, Function.update_of_ne hr, hi.replay]
  · intro r
    by_cases hr : r = s
    · subst hr
      simp only [State.make, Function.update_self, Bool.not_eq_self, ne_eq, not_false_eq_true,
        Function.update_of_ne]
      refine legal_concat.mpr ⟨hi.legal r, ?_⟩
      rw [hi.replay]
      exact hadd
    · obtain rfl : r = !s := by cases r <;> cases s <;> simp_all
      simp only [State.make, Bool.not_not, Function.update_self, Function.update_of_ne hr]
      have hlegal := hi.legal (!s)
      rw [Bool.not_not] at hlegal
      exact hlegal.insert hc.unannounced hc.stays

theorem drop (hi : S.Inv root) (hc : S.CanDrop s f) : (S.drop s f).Inv root := by
  have hdel : Deletable (S.own (!s)) (S.own s) f := by
    refine ⟨hc.mem, fun hdir g hg => ?_⟩
    rcases hg with hg | hg
    · rcases hi.mem_copies_or_add hg with hg | hg
      · exact hc.empty hdir g (.inr hg)
      · exact hc.unwanted hdir g hg
    · exact hc.empty hdir g (.inl hg)
  constructor
  · intro r
    by_cases hr : r = s
    · subst hr
      simp [State.drop, replay_concat, hi.replay, apply]
    · simp [State.drop, Function.update_of_ne hr, hi.replay]
  · intro r
    by_cases hr : r = s
    · subst hr
      simp only [State.drop, Function.update_self, Bool.not_eq_self, ne_eq, not_false_eq_true,
        Function.update_of_ne]
      refine legal_concat.mpr ⟨hi.legal r, ?_⟩
      rw [hi.replay]
      exact hdel
    · obtain rfl : r = !s := by cases r <;> cases s <;> simp_all
      simp only [State.drop, Bool.not_not, Function.update_self, Function.update_of_ne hr]
      have hlegal := hi.legal (!s)
      rw [Bool.not_not] at hlegal
      exact hlegal.diff hc.unwanted

/-- The oldest message finds what it needs. -/
theorem fits (hi : S.Inv root) (hq : S.queue s = m :: q) :
    Fits root (S.own (!s)) (S.copies (!s)) m := by
  have hlegal := hi.legal s
  rw [hq] at hlegal
  exact hlegal.1

theorem deliver (hi : S.Inv root) (hq : S.queue s = m :: q) : (S.deliver s m q).Inv root := by
  have hreplay := hi.replay s
  have hlegal := hi.legal s
  rw [hq] at hreplay hlegal
  constructor
  · intro r
    by_cases hr : r = s
    · subst hr
      simp only [State.deliver, Function.update_self]
      exact hreplay
    · obtain rfl : r = !s := by cases r <;> cases s <;> simp_all
      simp [State.deliver, ← hi.replay (!s)]
  · intro r
    by_cases hr : r = s
    · subst hr
      simp only [State.deliver, Function.update_self]
      exact hlegal.2
    · obtain rfl : r = !s := by cases r <;> cases s <;> simp_all
      have hother := hi.legal (!s)
      simpa [State.deliver, Function.update_of_ne hr] using hother

/-- With no message under way the copies are the files of the other site. -/
theorem copies_eq (hi : S.Inv root) (hq : S.queue s = []) : S.copies (!s) = S.own s := by
  have hreplay := hi.replay s
  rw [hq] at hreplay
  exact hreplay

/-- With no message under way the sites have the same files. -/
theorem tree_eq (hi : S.Inv root) (hq : ∀ s, S.queue s = []) (s : Bool) :
    S.tree s = S.tree (!s) := by
  have hcopies := hi.copies_eq (hq (!s))
  rw [Bool.not_not] at hcopies
  rw [State.tree, State.tree, hcopies, hi.copies_eq (hq s), Set.union_comm]

end State.Inv

/-! ## paths -/

/-- The path leads from the root to a file of this name, in a tree with these
files; `b` is whether it is a directory. -/
inductive Leads (root : ν) (T : Set (File ν ι)) : List ν → ν → Bool → Prop
  | root : Leads root T [] root true
  | child {path : List ν} {f : File ν ι} {b : Bool} : Leads root T path f.parent b → f ∈ T →
      Leads root T (path ++ [f.name]) f.name f.isDir

end Replica
