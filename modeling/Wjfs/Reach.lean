import Wjfs.FileOps
import Wjfs.Run

/-!
# Wjfs.Reach

Every state that a mounted host can get into.

`Run` knows the calls on names, the control frames and the numbers drawn
elsewhere.  `Reach` adds what processes and the peer do with files: opening,
closing, reading and writing them.  An open file holds a reference to its
dentry, which nothing else in the tree accounts for.
-/

namespace Wjfs

namespace Host

variable {h h' : Host} {env : Env} {err : Option Errno}

/-- The states of a mounted host, after anything that was not fatal. -/
inductive Reach : Host → Prop
  | mount (lastIno : CInt) (perm : BitVec 12) (nextPtr : Ptr) (table : Table) :
      Reach (mounted lastIno perm nextPtr table)
  | event {h h' : Host} {e : Event} : Reach h → h.step e = .ok h' → Reach h'
  | opened {h h' : Host} {env : Env} {path : List Bytes} {name : Bytes} {err : Option Errno} :
      Reach h → h.sysOpen env path name = .ok (h', err) → Reach h'
  | closed {h : Host} (k : Ptr) : Reach h → Reach (h.sysClose k)
  | read {h : Host} {env : Env} {peer : Bytes → Except Fault Bytes} {k : CInt} {dentry : Ptr}
      {mem : Nat → UInt8} {len ppos : Nat} {o : ReadOutcome} :
      Reach h → h.wjfsRead env peer k dentry mem len ppos = .ok o → Reach o.host
  | write {h : Host} {env : Env} {dentry : Ptr} {buf : Bytes} {ppos : Nat} {o : WriteOutcome} :
      Reach h → h.wjfsWrite env dentry buf ppos = .ok o → Reach o.host
  | written {h h' : Host} {buf : Bytes} : Reach h → h.rdmaWrite buf = .ok h' → Reach h'

/-- What happens along a run. -/
theorem Run.reach {ok : Host → Event → Prop} (hr : Run ok h) : Reach h := by
  induction hr with
  | mount lastIno perm nextPtr table => exact .mount lastIno perm nextPtr table
  | step _ _ hok ih => exact ih.event hok

theorem Reach.play {es : List Event} (hr : Reach h) (hp : h.play es = .ok h') : Reach h' := by
  induction es generalizing h with
  | nil =>
      cases hp
      exact hr
  | cons e es ih =>
      obtain ⟨g, hg, hp⟩ := bind_eq_ok hp
      exact ih (hr.event hg) hp

/-! ## sane in every state -/

/-- The open files play no part. -/
theorem Sane.setFiles (hs : h.Sane) (files : List Ptr) : ({ h with files := files } : Host).Sane :=
  ⟨hs.held, hs.unmounted, hs.ptr_lt, hs.inode_lt, hs.dirs⟩

theorem Sane.sysOpen (hs : h.Sane) {path : List Bytes} {name : Bytes}
    (hok : h.sysOpen env path name = .ok (h', err)) : h'.Sane := by
  obtain ⟨-, rfl⟩ | ⟨dir, r, -, hr, rfl⟩ := withParent_ok hok
  · exact hs
  have hget := (Fades.dget hs dir).sane hs
  obtain ⟨⟨g, x⟩, hlook, hr⟩ := bind_eq_ok hr
  have hg := (lookupNd_cases hget hlook).1.sane
  have hr' : r.Sane := by
    cases x with
    | error e =>
        cases hr
        exact hg
    | ok k =>
        simp only at hr
        split at hr
        · cases hr
          exact hg.setFiles _
        · cases hr
          exact (Fades.dput hg k).sane hg
  exact (Fades.dput hr' dir).sane hr'

theorem Sane.sysClose (hs : h.Sane) (k : Ptr) : (h.sysClose k).Sane := by
  unfold Host.sysClose
  split
  · exact (Fades.dput (hs.setFiles _) k).sane (hs.setFiles _)
  · exact hs

/-- Contents play no part. -/
theorem Sane.setInode (hs : h.Sane) (i : Ptr) {f : Inode → Inode} (hf : ∀ n, SameFile (f n) n) :
    (h.setInode i f).Sane := (Fades.setInode hs i hf).sane hs

theorem Sane.wjfsRead (hs : h.Sane) {peer : Bytes → Except Fault Bytes} {k : CInt} {dentry : Ptr}
    {mem : Nat → UInt8} {len ppos : Nat} {o : ReadOutcome}
    (hok : h.wjfsRead env peer k dentry mem len ppos = .ok o) : o.host.Sane := by
  obtain ⟨mine, -, hok⟩ := bind_eq_ok hok
  split at hok
  · split at hok
    · cases hok
    next i _ =>
    cases hok
    show (h.setInode i fun n => (n.genericFileAioRead len ppos).1).Sane
    refine hs.setInode i fun n => ?_
    unfold Inode.genericFileAioRead
    split <;> exact ⟨rfl, rfl⟩
  · obtain ⟨message, -, hok⟩ := bind_eq_ok hok
    cases hok
    exact hs

theorem Sane.wjfsWrite (hs : h.Sane) {dentry : Ptr} {buf : Bytes} {ppos : Nat} {o : WriteOutcome}
    (hok : h.wjfsWrite env dentry buf ppos = .ok o) : o.host.Sane := by
  obtain ⟨mine, -, hok⟩ := bind_eq_ok hok
  split at hok
  · split at hok
    · cases hok
    · cases hok
      exact hs.setInode _ (f := (·.genericFileAioWrite buf ppos)) fun _ => ⟨rfl, rfl⟩
  · obtain ⟨message, -, hok⟩ := bind_eq_ok hok
    obtain ⟨wire, -, hok⟩ := bind_eq_ok hok
    cases hok
    exact hs

theorem Sane.rdmaWrite (hs : h.Sane) {buf : Bytes} (hok : h.rdmaWrite buf = .ok h') : h'.Sane := by
  obtain ⟨req, -, hok⟩ := bind_eq_ok hok
  split at hok
  · cases hok
    exact hs
  · split at hok
    · cases hok
    · cases hok
      exact hs.setInode _ (f := putFileMessage req.message) fun _ => ⟨rfl, rfl⟩

/-- Whatever happens to a host, it stays sane. -/
theorem Reach.sane (hr : Reach h) : h.Sane := by
  induction hr with
  | mount lastIno perm nextPtr table => exact sane_mounted lastIno perm nextPtr table
  | event _ hok ih => exact ih.step hok
  | opened _ hok ih => exact ih.sysOpen hok
  | closed k _ ih => exact ih.sysClose k
  | read _ hok ih => exact ih.wjfsRead hok
  | write _ hok ih => exact ih.wjfsWrite hok
  | written _ hok ih => exact ih.rdmaWrite hok

end Host

end Wjfs
