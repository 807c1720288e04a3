import Wjfs.Namespace
import Wjfs.Server

/-!
# Wjfs.Refusal

Removing a link that the host does not own.

`wjfs_unlink` and `wjfs_rmdir` refuse a link by printing a message and
returning 0.  The VFS takes the 0 for success and unhashes the dentry, so the
only removals of a link that leave it alone are those the VFS itself turns
down before it calls the filesystem.
-/

namespace Wjfs

namespace Host

/-- A call leaves the visible namespace, the record of the dentry `k` (its
hash state, reference count and flags) and the table as they were. -/
structure LeavesLink (h h' : Host) (k : Ptr) : Prop where
  names : ∀ path isDir, h'.Names path isDir ↔ h.Names path isDir
  dentry : h'.dentryOf? k = h.dentryOf? k
  table : h'.table = h.table

/-- The VFS turns the removal of `d` from `dir` down by itself: the name is
`.` or `..`, the directory may not be searched, `may_delete` says no, or
something is mounted there. -/
def VfsRefuses (env : Env) (h : Host) (dir : Ptr) (d : Dentry) (isdir : Bool) : Prop :=
  lastNorm d.dName = false ∨ ∃ i, h.dInode? dir = some i ∧
    (env.inodePermission (h.inodes i) .exec = false ∨
      (h.mayDelete env i d.ptr isdir).isSome ∨ d.dMounted = true)

section Removal

variable {env : Env} {h : Host} {path : List Bytes} {dir i : Ptr} {d : Dentry} {e : Errno}
  {call : Host → Ptr → Ptr → Outcome}
  (hn : h.dcache.ptrs.Nodup) (hc : ∀ x ∈ h.dcache.nodes, 1 ≤ x.2.dCount)
  (hl : h.dcache.dLookup dir d.dName = some d)

/-! ## what decides -/

section Decide

include hn hc hl

/-- If a call changes nothing where the VFS refuses, and unhashes the dentry
where it does not, then it leaves the link alone exactly where the VFS
refuses. -/
theorem leavesLink_iff {isdir : Bool} (hw : h.walk env h.root path = .ok dir)
    (hrefuse : ∀ i, h.dInode? dir = some i →
      (h.mayDelete env i d.ptr isdir).isSome ∨ d.dMounted = true →
      ∃ e', call ((h.dget dir).dget d.ptr) i d.ptr = .ok ((h.dget dir).dget d.ptr, some e'))
    (haccept : ∀ i, h.dInode? dir = some i → h.mayDelete env i d.ptr isdir = none →
      d.dMounted = false → ∃ h₃ e', call ((h.dget dir).dget d.ptr) i d.ptr = .ok (h₃, e') ∧
        h₃.dcache = ((h.dget dir).dget d.ptr).dcache.update d.ptr Dentry.drop) :
    (∃ h' e', h.withName env path d.dName e call = .ok (h', e') ∧ h.LeavesLink h' d.ptr) ↔
      h.VfsRefuses env dir d isdir := by
  obtain ⟨i, hi, -⟩ := isDir_of_walk hw
  obtain ⟨x, hx, -⟩ : ∃ x, h.dentryOf? dir = some x ∧ x.2.dInode = some i :=
    Option.bind_eq_some_iff.mp hi
  have hcx : 1 ≤ x.2.dCount := hc _ (Dcache.mem_nodes_of_node? hx)
  have hd := dentryOf?_of_dLookup hn hl
  have hcd : 1 ≤ d.dCount := hc _ (Dcache.mem_nodes_of_node? hd)
  have hsame : ∀ e', (∃ h' e'', Except.ok (h, some e') = (Except.ok (h', e'') : Outcome) ∧
      h.LeavesLink h' d.ptr) := fun e' => ⟨h, _, rfl, fun _ _ => Iff.rfl, rfl, rfl⟩
  by_cases hnorm : lastNorm d.dName = true
  swap
  · refine iff_of_true ?_ (.inl (by simpa using hnorm))
    unfold withName
    rw [withParent_of_walk hw, if_neg hnorm]
    simp only [Except.map, dput_dget hx (by omega)]
    exact hsame _
  by_cases hp : env.inodePermission (h.inodes i) .exec = true
  swap
  · refine iff_of_true ?_ (.inr ⟨i, hi, .inl (by simpa using hp)⟩)
    unfold withName
    rw [withParent_of_walk hw, if_pos hnorm, withDentry_denied (i := h.inodes i)
      (by simp [inodeOf?, hi]) (by simpa using hp)]
    simp only [Except.map, dput_dget hx (by omega)]
    exact hsame _
  rw [withName_of_dLookup hn hl hw hi hnorm hp]
  by_cases hr : (h.mayDelete env i d.ptr isdir).isSome ∨ d.dMounted = true
  · refine iff_of_true ?_ (.inr ⟨i, hi, .inr hr⟩)
    obtain ⟨e', he⟩ := hrefuse i hi hr
    simp only [he, Except.map, dput_dput_of_dLookup hn hl hc (by rw [hx]; simp)]
    exact hsame _
  · -- the callback runs, refuses, returns 0, and the VFS unhashes the dentry
    refine iff_of_false ?_ ?_
    · rintro ⟨h', e', hok, hleaves⟩
      rw [not_or, Option.not_isSome_iff_eq_none, Bool.not_eq_true] at hr
      obtain ⟨h₃, e₃, he, hdc⟩ := haccept i hi hr.1 hr.2
      rw [he] at hok
      cases hok
      have hne := ne_of_dLookup hn hl
      have h1 : (h.dcache.dget dir).node? d.ptr = some (some dir, d) :=
        (Dcache.node?_update_ne Dcache.keeps_get (Ne.symm hne)).trans hd
      have hfinal : ((h₃.dput d.ptr).dput dir).dcache = h.dcache.update d.ptr Dentry.drop := by
        simp only [dcache_dput, hdc, dcache_dget]
        rw [Dcache.dput_drop_dget h1 (by simp only; omega),
          Dcache.dput_update_dget Dcache.keeps_drop hne hx (by omega)]
      have hdrop : ((h₃.dput d.ptr).dput dir).dentryOf? d.ptr = some (some dir, d.drop) := by
        rw [dentryOf?, hfinal]
        exact Dcache.node?_update_self Dcache.keeps_drop hd
      have hhash := (Dcache.dLookup_some hl).2.1
      rw [hleaves.dentry, hd, Option.some.injEq, Prod.mk.injEq] at hdrop
      rw [hdrop.2] at hhash
      cases hhash
    · rintro (hno | ⟨j, hj, hno | hno⟩)
      · rw [hnorm] at hno; cases hno
      · rw [hi] at hj; cases hj; rw [hp] at hno; cases hno
      · rw [hi] at hj; cases hj; exact hr hno

end Decide

/-! ## the two calls -/

section Calls

include hn hc hl

/-- `vfs_unlink` of a link, as `leavesLink_iff` wants to know it. -/
theorem sysUnlink_leavesLink_iff (hw : h.walk env h.root path = .ok dir)
    (hlink : h.isMyFile d.ptr = .ok false) :
    (∃ h' e', h.sysUnlink env path d.dName = .ok (h', e') ∧ h.LeavesLink h' d.ptr) ↔
      h.VfsRefuses env dir d false := by
  have h2 := dentryOf?_dget_dget hn hl
  have hcd : 1 ≤ d.dCount := hc _ (Dcache.mem_nodes_of_node? (dentryOf?_of_dLookup hn hl))
  refine leavesLink_iff hn hc hl hw ?_ ?_
  · intro i hi hr
    unfold vfsUnlink
    rw [mayDelete_dget, mayDelete_dget]
    cases hm : h.mayDelete env i d.ptr false with
    | some e' => exact ⟨e', rfl⟩
    | none =>
        rw [hm] at hr
        refine ⟨.ebusy, ?_⟩
        simp only [h2, Option.any_some, Dentry.get]
        rw [if_pos (by simpa using hr)]
  · intro i hi hm hmnt
    unfold vfsUnlink wjfsUnlink
    rw [mayDelete_dget, mayDelete_dget, hm, isMyFile_dget, isMyFile_dget, hlink]
    simp only [h2, Option.any_some, Dentry.get, hmnt, bind, Except.bind]
    refine ⟨_, _, rfl, ?_⟩
    exact Dcache.dDelete_of_ne_one (by simpa [Dcache.dget] using hn) h2
      (by simp only [Dentry.get]; omega)

/-- `vfs_rmdir` of a link: `dentry_unhash` does not see the last user either,
as the pin of the link is still there. -/
theorem sysRmdir_leavesLink_iff (hw : h.walk env h.root path = .ok dir)
    (hlink : h.isMyFile d.ptr = .ok false) :
    (∃ h' e', h.sysRmdir env path d.dName = .ok (h', e') ∧ h.LeavesLink h' d.ptr) ↔
      h.VfsRefuses env dir d true := by
  have h2 := dentryOf?_dget_dget hn hl
  have hcd : 1 ≤ d.dCount := hc _ (Dcache.mem_nodes_of_node? (dentryOf?_of_dLookup hn hl))
  have hnd : ((h.dget dir).dget d.ptr).dcache.ptrs.Nodup := by simpa [Dcache.dget] using hn
  have hun : ((h.dget dir).dget d.ptr).mapDcache (·.dentryUnhash d.ptr) =
      ((h.dget dir).dget d.ptr).dget d.ptr :=
    mapDcache_congr (Dcache.dentryUnhash_of_ne_one hnd h2 (by simp only [Dentry.get]; omega))
  have h3 : (((h.dget dir).dget d.ptr).dget d.ptr).dentryOf? d.ptr = some (some dir, d.get.get) :=
    Dcache.node?_update_self Dcache.keeps_get h2
  refine leavesLink_iff hn hc hl hw ?_ ?_
  · intro i hi hr
    unfold vfsRmdir
    rw [mayDelete_dget, mayDelete_dget]
    cases hm : h.mayDelete env i d.ptr true with
    | some e' => exact ⟨e', rfl⟩
    | none =>
        rw [hm] at hr
        refine ⟨.ebusy, ?_⟩
        simp only [hun, rmdirUnhashed, h3, Option.any_some, Dentry.get, bind, Except.bind]
        rw [if_pos (by simpa using hr)]
        simp only [dput_dget h2 (by simp only [Dentry.get]; omega)]
  · intro i hi hm hmnt
    obtain ⟨ik, hik⟩ : ∃ ik, h.dInode? d.ptr = some ik := by
      unfold isMyFile inodeOf? at hlink
      cases hk : h.dInode? d.ptr with
      | none => rw [hk] at hlink; cases hlink
      | some ik => exact ⟨ik, rfl⟩
    unfold vfsRmdir
    rw [mayDelete_dget, mayDelete_dget, hm]
    simp only [hun, rmdirUnhashed, h3, Option.any_some, Dentry.get, hmnt, wjfsRmdir,
      isMyFile_dget, hlink, bind, Except.bind, Bool.false_eq_true, if_false]
    rw [withInode_of_some (i := ik) (by simpa using hik)]
    refine ⟨_, _, rfl, ?_⟩
    have hnd3 : (((h.dget dir).dget d.ptr).dcache.dget d.ptr).ptrs.Nodup := by
      simpa [Dcache.dget] using hnd
    have hdel := Dcache.dDelete_of_ne_one hnd3 h3 (by simp only [Dentry.get]; omega)
    have hput := Dcache.dput_drop_dget h2 (by simp only [Dentry.get]; omega)
    exact (congrArg (·.dput d.ptr) hdel).trans hput

end Calls

/-- `rmdir` or `unlink` of a path. -/
def sysRemove (env : Env) (h : Host) (path : List Bytes) (name : Bytes) (isdir : Bool) : Outcome :=
  if isdir then h.sysRmdir env path name else h.sysUnlink env path name

include hn hc hl in
/-- **Removing a link**: in every state, an `unlink` or `rmdir` of a link
leaves the namespace, the dentry and the table as they were if and only if
the VFS turns it down before the filesystem is asked.  Where the filesystem is
asked and refuses, the dentry is unhashed all the same. -/
theorem sysRemove_leavesLink_iff (hw : h.walk env h.root path = .ok dir)
    (hlink : h.isMyFile d.ptr = .ok false) (isdir : Bool) :
    (∃ h' e', h.sysRemove env path d.dName isdir = .ok (h', e') ∧ h.LeavesLink h' d.ptr) ↔
      h.VfsRefuses env dir d isdir := by
  cases isdir with
  | true => exact sysRmdir_leavesLink_iff hn hc hl hw hlink
  | false => exact sysUnlink_leavesLink_iff hn hc hl hw hlink

end Removal

end Host

/-! ## a link in the root -/

/-- A fresh host that was told of a file `x` in the root of its peer. -/
def withLinkX : Host :=
  let m := Host.mounted 0 0o755 0 Table.initial
  (m.rdmaCreate (Env.server true) createX []).toOption.getD m

/-- The dentry of that link. -/
def linkX : Dentry where
  ptr := 2
  dName := [120]
  dInode := some 3
  dCount := 1
  dUnhashed := false
  dOp := true
  dMounted := false

/-- `rmdir` of the link, which is no directory, is turned down by the VFS and
leaves it alone. -/
theorem sysRemove_leavesLink_rmdir :
    ∃ h' e', withLinkX.sysRemove (Env.server true) [] linkX.dName true = .ok (h', e') ∧
      withLinkX.LeavesLink h' linkX.ptr :=
  (@Host.sysRemove_leavesLink_iff (Env.server true) withLinkX [] 0 linkX (by decide)
    (by decide) (by decide) (by decide) (by decide) true).mpr
    (.inr ⟨1, by decide, .inr (.inl (by decide))⟩)

/-- `unlink` of the link reports success, but its name is gone. -/
theorem sysUnlink_linkX :
    (withLinkX.sysUnlink (Env.server true) [] [120]).toOption.map
        (fun r => (r.2, r.1.dentryOf? linkX.ptr, r.1.dcache.dLookup 0 [120])) =
      some (none, some (some 0, linkX.drop), none) := by
  decide

/-- The refused `unlink` of a link in the root does not leave it alone. -/
theorem unlink_unhashes_link :
    withLinkX.dcache.dLookup withLinkX.root linkX.dName = some linkX ∧
      withLinkX.isMyFile linkX.ptr = .ok false ∧
      ∃ h', withLinkX.sysRemove (Env.server true) [] linkX.dName false = .ok (h', none) ∧
        h'.dcache.dLookup h'.root linkX.dName = none ∧ ¬ withLinkX.LeavesLink h' linkX.ptr := by
  refine ⟨by decide, by decide, ?_⟩
  have hrun := sysUnlink_linkX
  have hroot : (withLinkX.sysUnlink (Env.server true) [] [120]).toOption.map (·.1.root) =
      some 0 := by decide
  cases hr : withLinkX.sysUnlink (Env.server true) [] [120] with
  | error f => rw [hr] at hrun; cases hrun
  | ok r =>
      rw [hr] at hrun hroot
      simp only [Except.toOption, Option.map_some, Option.some.injEq, Prod.mk.injEq] at hrun hroot
      obtain ⟨hnone, hdentry, hgone⟩ := hrun
      refine ⟨r.1, ?_, by rw [hroot]; exact hgone, fun hleave => ?_⟩
      · rw [← hnone]
        exact hr
      · -- the dentry is unhashed now, and was not before
        have hbefore : withLinkX.dentryOf? linkX.ptr = some (some 0, linkX) := by decide
        have hsame := hleave.dentry
        rw [hdentry, hbefore] at hsame
        exact absurd hsame (by decide)

end Wjfs
