import Wjfs.Host.Create

/-!
# Wjfs.Host.Remove

The calls that remove a name, on a tidy host and for a file the host owns:
each either fails without a trace, or takes one leaf out of the tree and drops
the reference it held to its directory.

`unlink` makes the dentry negative before its last `dput`, `rmdir` unhashes
it; both end in the same tree.
-/

namespace Wjfs

namespace Dcache

variable {t : Dcache} {dir k : Ptr} {d : Dentry} {f : Dentry → Dentry}

theorem unlinkChild_update_self (hn : t.ptrs.Nodup) (hf : Keeps f) (h0 : t.kids k = 0) :
    (t.update k f).unlinkChild k = t.unlinkChild k := by
  rw [← update_unlinkChild hf]
  refine update_of_not_mem fun hm => ?_
  obtain ⟨y, hy, hyk⟩ := Forest.exists_mem_flat hm none
  exact ((mem_nodes_unlinkChild hn h0).mp hy).2 hyk

/-- The last two `dput`s of a removal: the dentry, now held by one reference
and given up, goes; the directory, held by the call, stays. -/
theorem dput_last_dget (hn : t.ptrs.Nodup) (hd : (some dir, d) ∈ t.nodes)
    (h0 : t.kids d.ptr = 0) (hf : Keeps f) (hc : (f d).dCount = 1)
    (hop : (f d).dOp = true ∨ (f d).dUnhashed = true)
    (hpos : ∀ x ∈ t.nodes, 1 ≤ x.2.dCount) :
    ((t.dget dir).update d.ptr f).dput d.ptr = t.unlinkChild d.ptr := by
  have hne := parent_ne_ptr hn hd
  have hd1 : (t.dget dir).node? d.ptr = some (some dir, d) :=
    (node?_update_ne keeps_get (Ne.symm hne)).trans (node?_of_mem hn hd)
  have hd2 := node?_update_self hf hd1
  obtain ⟨y, hy, hyk⟩ := Forest.exists_mem_flat (parent_mem_ptrs hd) none
  have hy1 : (t.unlinkChild d.ptr).node? dir = some y := by
    rw [node?_eq_some_iff (nodup_unlinkChild hn), mem_nodes_unlinkChild hn h0]
    exact ⟨⟨hy, by rw [hyk]; exact hne⟩, hyk⟩
  have hyc := hpos y hy
  have h0' : (t.dget dir).kids d.ptr = 0 := (kids_update keeps_get).trans h0
  rw [dput_last hd2 hc hop, unlinkChild_update_self (by simpa using hn) hf h0', dget,
    ← update_unlinkChild keeps_get]
  exact dput_dget hy1 (by omega)

end Dcache

namespace Host

variable {pin : Ptr → Nat} {h : Host} {env : Env} {path : List Bytes} {name : Bytes}
  {dir di k : Ptr} {d : Dentry} {call : Host → Ptr → Ptr → Outcome} {e : Errno}

/-! ## children of a tidy host -/

section Tidy

variable (ht : h.Tidy pin)
include ht

/-- Only directories have children. -/
theorem Tidy.kids_eq_zero {i : Ptr} (hi : h.dInode? k = some i)
    (hd : (h.inodes i).isDir = false) : h.dcache.kids k = 0 := by
  by_contra hne
  obtain ⟨x, hx, hxk⟩ := List.countP_pos_iff.mp (Nat.pos_of_ne_zero hne)
  rw [decide_eq_true_eq] at hxk
  obtain ⟨j, hj, hdir⟩ := ht.dirs k x.2 (by rw [← hxk]; exact hx)
  rw [hi] at hj
  cases hj
  rw [hd] at hdir
  cases hdir

/-- A directory that `simple_empty` finds empty has no children at all. -/
theorem Tidy.kids_of_simpleEmpty (hk : h.dcache.simpleEmpty k = true) :
    h.dcache.kids k = 0 := by
  by_contra hne
  obtain ⟨x, hx, hxk⟩ := List.countP_pos_iff.mp (Nat.pos_of_ne_zero hne)
  rw [decide_eq_true_eq] at hxk
  have hx' : (some k, x.2) ∈ h.dcache.nodes := by rw [← hxk]; exact hx
  have hall := List.all_eq_true.mp hk x.2 ((Dcache.mem_subdirs_iff ht.sound.nodup).mpr hx')
  obtain ⟨hh, -, -, hs⟩ := ht.ready.live k x.2 hx'
  simp [Dentry.positive, hh, hs] at hall

theorem Tidy.simpleEmpty_of_kids (hk : h.dcache.kids k = 0) :
    h.dcache.simpleEmpty k = true := by
  have hs := Dcache.subdirs_eq_nil ht.sound.nodup hk
  unfold Dcache.simpleEmpty
  rw [hs]
  rfl

/-- A leaf that is not open is held by its pin alone. -/
theorem Tidy.count_leaf (hd : (some dir, d) ∈ h.dcache.nodes) (h0 : h.dcache.kids d.ptr = 0)
    (hopen : d.ptr ∉ h.files) : d.dCount = 1 := by
  have hc := ht.sound.count _ hd
  have hp := ht.sound.pos _ hd
  have hle := ht.sound.pin_le dir d hd
  have ho : h.opens d.ptr = 0 := List.count_eq_zero.mpr hopen
  simp only at hc hp
  omega

end Tidy

/-! ## finding the victim -/

/-- A call that removes a name either fails without a trace, or is run on the
dentry of that name. -/
theorem withVictim_cases (ht : h.Ready) (env : Env) (path : List Bytes) (name : Bytes)
    (e : Errno) (call : Host → Ptr → Ptr → Outcome)
    (hneg : ∀ g di k, g.dInode? k = none → ∃ e', call g di k = .ok (g, some e')) :
    (∃ h' e', h.NoTrace h' ∧ h.withName env path name e call = .ok (h', some e')) ∨
    (∃ dir di d, d.dName = name ∧ h.Victim env path dir di d ∧
      h.withName env path name e call =
        (call ((h.dget dir).dget d.ptr) di d.ptr).map
          fun r => ((r.1.dput d.ptr).dput dir, r.2)) := by
  rcases withName_cases ht env path name e call with
    hfail | hhit | ⟨dir, di, hq, heq⟩
  · exact .inl hfail
  · exact .inr hhit
  · -- the name is not there: the negative dentry is given up
    obtain ⟨x, hx, -⟩ := hq.dentry
    have hx1 : (h.dcache.dget dir).node? dir = some (x.1, x.2.get) :=
      Dcache.node?_update_self Dcache.keeps_get hx
    obtain ⟨e', he⟩ := hneg (h.looked (h.dcache.dget dir) dir name) di h.nextPtr
      (dInode?_looked_new (by simpa using ht.nodup) hx1 (by simpa using ht.nextPtr_not_mem))
    refine .inl ⟨_, e', ⟨h.nextPtr + 1, Nat.le_succ _, rfl⟩, ?_⟩
    rw [heq, he]
    simp only [Except.map]
    rw [dput_dput_looked ht hx]

/-! ## unlink -/

/-- The tree without the leaf `k` of `dir`, with the reference that the leaf
held dropped. -/
def pruned (h : Host) (dir k : Ptr) : Host :=
  h.mapDcache fun t => (t.unlinkChild k).dput dir

/-- The frame that tells the peer of a removal. -/
def removeFrame (h : Host) (dir di i : Ptr) (d : Dentry) (isdir : Bool) : Bytes :=
  wjfsClientRemove (h.inodes i).iIno d.dName (h.inodes di).iIno ((h.dName? dir).getD []) isdir

/-- The host after `unlink` of `d`. -/
def unlinked (env : Env) (h : Host) (dir di i : Ptr) (d : Dentry) : Host :=
  ((h.pruned dir d.ptr).setInode i Inode.dropNlink).send env (h.removeFrame dir di i d false)

/-- The host after `rmdir` of `d`. -/
def rmdired (env : Env) (h : Host) (dir di i : Ptr) (d : Dentry) : Host :=
  ((((((h.pruned dir d.ptr).setInode i Inode.dropNlink).setInode i Inode.dropNlink).setInode di
    Inode.dropNlink).send env (h.removeFrame dir di i d true)).setInode i Inode.setDead)

/-- The numbers and names of a removal frame do not depend on the references
held, nor on link counts. -/
theorem frameFields_of_nodes {g : Host} {i : Ptr} {x : Option Ptr × Dentry} {y : Dentry}
    (hk : g.dentryOf? k = some (some dir, y)) (hd : g.dentryOf? dir = some x)
    (hi : y.dInode = some i) (hdi : x.2.dInode = some di) :
    g.frameFields k = .ok ((g.inodes i).iIno, y.dName, (g.inodes di).iIno, x.2.dName) := by
  have hp : g.dParent k = dir := by simp [dParent, hk]
  unfold frameFields
  simp only [hp, inodeOf?, dInode?, dName?, hk, hd, Option.bind_some, Option.map_some, hi, hdi]

theorem iIno_setInode {g : Inode → Inode} (hg : ∀ n, (g n).iIno = n.iIno) (i j : Ptr) :
    ((h.setInode i g).inodes j).iIno = (h.inodes j).iIno := by
  unfold setInode
  by_cases hj : j = i
  · simp [hj, hg]
  · simp [hj]

section Unlink

variable {i : Ptr} (ht : h.Tidy pin) (hv : h.Victim env path dir di d) (hi : d.dInode = some i)
  (hopen : d.ptr ∉ h.files) (hown : h.isMyFile d.ptr = .ok true)
include ht hv hi hopen hown

/-- `vfs_unlink` of an owned file, and the `dput`s after it. -/
theorem vfsUnlink_owned (hm : h.mayDelete env di d.ptr false = none)
    (hdir : (h.inodes i).isDir = false) :
    (((h.dget dir).dget d.ptr).vfsUnlink env di d.ptr).map
        (fun r => ((r.1.dput d.ptr).dput dir, r.2)) =
      .ok (h.unlinked env dir di i d, none) := by
  have hn := ht.sound.nodup
  have hmem := hv.mem hn
  have hd := dentryOf?_of_dLookup hn hv.lookup
  have hdik : h.dInode? d.ptr = some i := by rw [dInode?, hd]; exact hi
  have h0 := ht.kids_eq_zero hdik hdir
  have hc := ht.count_leaf hmem h0 hopen
  obtain ⟨x, hx, hxi⟩ := Ready.exists_dentry hv.inode
  have h2 := dentryOf?_dget_dget hn hv.lookup
  have hlive := ht.ready.live dir d hmem
  -- the callback's `dput` takes the reference of the lookup back
  have hcb : (((h.dget dir).dget d.ptr).setInode i Inode.dropNlink).dput d.ptr =
      (h.dget dir).setInode i Inode.dropNlink := by
    rw [dput_setInode, dput_dget (dentryOf?_dget_parent hn hv.lookup) (by simp only; omega)]
  have hx1 : (h.dget dir).dentryOf? dir = some (x.1, x.2.get) :=
    Dcache.node?_update_self Dcache.keeps_get hx
  have hfields : ((h.dget dir).setInode i Inode.dropNlink).frameFields d.ptr =
      .ok ((h.inodes i).iIno, d.dName, (h.inodes di).iIno, x.2.dName) := by
    rw [frameFields_of_nodes (g := (h.dget dir).setInode i Inode.dropNlink)
      (dentryOf?_dget_parent hn hv.lookup) hx1 hi hxi, iIno_setInode Inode.iIno_dropNlink,
      iIno_setInode Inode.iIno_dropNlink]
    rfl
  unfold vfsUnlink wjfsUnlink
  rw [mayDelete_dget, mayDelete_dget, hm]
  simp only [h2, Option.any_some, Dentry.get, hlive.2.2.1, isMyFile_dget, hown, dInode?_dget,
    hdik, hcb, hfields, bind, Except.bind, Bool.false_eq_true, if_false, if_true, Except.map]
  have hdel : ((h.dcache.dget dir).dDelete d.ptr).dput d.ptr = h.dcache.unlinkChild d.ptr := by
    have hiput : (h.dcache.dget dir).dDelete d.ptr = (h.dcache.dget dir).update d.ptr Dentry.iput :=
      Dcache.update_congr (by simpa using hn) (dentryOf?_dget_parent hn hv.lookup) (if_pos hc)
    rw [hiput]
    exact Dcache.dput_last_dget hn hmem h0 Dcache.keeps_iput hc (.inl hlive.2.1) ht.sound.pos
  rw [mapDcache_send, dput_send, dput_send]
  unfold unlinked removeFrame pruned
  simp only [dName?, hx, Option.map_some, Option.getD_some]
  unfold dput setInode mapDcache
  simp only [dcache_dget, hdel]
  rfl

/-- `vfs_rmdir` of an owned directory, and the `dput`s after it. -/
theorem vfsRmdir_owned (hm : h.mayDelete env di d.ptr true = none) :
    (((h.dget dir).dget d.ptr).vfsRmdir env di d.ptr).map
        (fun r => ((r.1.dput d.ptr).dput dir, r.2)) =
      .ok (if h.dcache.simpleEmpty d.ptr then (h.rmdired env dir di i d, none)
        else (h, some .enotempty)) := by
  have hn := ht.sound.nodup
  have hmem := hv.mem hn
  have hd := dentryOf?_of_dLookup hn hv.lookup
  have hdik : h.dInode? d.ptr = some i := by rw [dInode?, hd]; exact hi
  obtain ⟨x, hx, hxi⟩ := Ready.exists_dentry hv.inode
  have hpos : 1 ≤ d.dCount := ht.sound.pos _ hmem
  have hlive := ht.ready.live dir d hmem
  have h2 := dentryOf?_dget_dget hn hv.lookup
  have hnd : ((h.dget dir).dget d.ptr).dcache.ptrs.Nodup := by simpa using hn
  have hun : ((h.dget dir).dget d.ptr).mapDcache (·.dentryUnhash d.ptr) =
      ((h.dget dir).dget d.ptr).dget d.ptr :=
    mapDcache_congr (Dcache.dentryUnhash_of_ne_one hnd h2 (by simp only [Dentry.get]; omega))
  have h3 : (((h.dget dir).dget d.ptr).dget d.ptr).dentryOf? d.ptr = some (some dir, d.get.get) :=
    Dcache.node?_update_self Dcache.keeps_get h2
  have hse : (((h.dget dir).dget d.ptr).dget d.ptr).dcache.simpleEmpty d.ptr =
      h.dcache.simpleEmpty d.ptr := by
    simp only [dcache_dget, Dcache.dget, Dcache.simpleEmpty_update Dcache.keeps_get fun _ => rfl]
  unfold vfsRmdir
  rw [mayDelete_dget, mayDelete_dget, hm]
  simp only [hun, rmdirUnhashed, h3, Option.any_some, Dentry.get, hlive.2.2.1, wjfsRmdir,
    isMyFile_dget, hown, hse, bind, Except.bind, Bool.false_eq_true, if_false, if_true]
  by_cases hempty : h.dcache.simpleEmpty d.ptr = true
  swap
  · -- a directory with entries: every reference is given back
    have hne : (!h.dcache.simpleEmpty d.ptr) = true := by simpa using hempty
    simp only [if_pos hne, if_neg hempty, Except.map]
    rw [dput_dget h2 (by simp only [Dentry.get]; omega),
      dput_dput_of_dLookup hn hv.lookup ht.sound.pos (by rw [hx]; simp)]
  have h0 := ht.kids_of_simpleEmpty hempty
  have hc := ht.count_leaf hmem h0 hopen
  have hcb : (((((h.dget dir).dget d.ptr).dget d.ptr).setInode i Inode.dropNlink).simpleUnlink
        d.ptr i) =
      ((((h.dget dir).dget d.ptr).setInode i Inode.dropNlink).setInode i Inode.dropNlink) := by
    rw [simpleUnlink, dput_setInode, dput_setInode, dput_dget h2 (by simp only [Dentry.get]; omega)]
  have hx2 : ((h.dget dir).dget d.ptr).dentryOf? dir = some (x.1, x.2.get) :=
    (Dcache.node?_update_ne Dcache.keeps_get (ne_of_dLookup hn hv.lookup)).trans
      (Dcache.node?_update_self Dcache.keeps_get hx)
  have hfields : ((((((h.dget dir).dget d.ptr).setInode i Inode.dropNlink).setInode i
        Inode.dropNlink).setInode di Inode.dropNlink).frameFields d.ptr) =
      .ok ((h.inodes i).iIno, d.dName, (h.inodes di).iIno, x.2.dName) := by
    refine (frameFields_of_nodes (g := (((((h.dget dir).dget d.ptr).setInode i
      Inode.dropNlink).setInode i Inode.dropNlink).setInode di Inode.dropNlink))
      h2 hx2 hi hxi).trans ?_
    simp only [iIno_setInode Inode.iIno_dropNlink]
    rfl
  have hfalse : ¬ (!h.dcache.simpleEmpty d.ptr) = true := by simpa using hempty
  simp only [if_neg hfalse, if_pos hempty, dInode?_dget, hdik, hcb, hfields, Except.map]
  have hin : ∀ b, ((((((h.dget dir).dget d.ptr).setInode i Inode.dropNlink).setInode i
      Inode.dropNlink).setInode di Inode.dropNlink).send env b).dInode? d.ptr = some i := by
    intro b
    simpa using hdik
  rw [withInode_of_some (hin _)]
  -- `d_delete` unhashes the dentry, and the three `dput`s let it go
  have hdel : ((((h.dcache.dget dir).dget d.ptr).dDelete d.ptr).dput d.ptr).dput d.ptr =
      h.dcache.unlinkChild d.ptr := by
    have hdrop : ((h.dcache.dget dir).dget d.ptr).dDelete d.ptr =
        ((h.dcache.dget dir).dget d.ptr).update d.ptr Dentry.drop :=
      Dcache.dDelete_of_ne_one hnd h2 (by simp only [Dentry.get]; omega)
    have hback := Dcache.dput_drop_dget (dentryOf?_dget_parent hn hv.lookup) (by simp only; omega)
    rw [dcache_dget] at hback
    rw [hdrop, hback]
    exact Dcache.dput_last_dget hn hmem h0 Dcache.keeps_drop hc (.inl hlive.2.1) ht.sound.pos
  unfold rmdired removeFrame pruned
  simp only [dName?, hx, Option.map_some, Option.getD_some]
  unfold send
  split <;>
  · unfold dput setInode mapDcache
    simp only [dcache_dget, hdel]
    rfl

end Unlink

/-! ## the calls -/

theorem mayDelete_negative {g : Host} (hk : g.dInode? k = none) (isdir : Bool) :
    g.mayDelete env di k isdir = some .enoent := by
  simp [mayDelete, inodeOf?, hk]

/-- What `may_delete` lets pass is of the kind that the call removes. -/
theorem isDir_of_mayDelete {i : Ptr} {isdir : Bool} (hi : h.dInode? k = some i)
    (hm : h.mayDelete env di k isdir = none) : (h.inodes i).isDir = isdir := by
  unfold mayDelete at hm
  simp only [inodeOf?, hi, Option.map_some] at hm
  cases isdir <;> cases hd : (h.inodes i).isDir <;> simp [hd] at hm ⊢ <;> grind

/-- What a removal that is turned down leaves behind. -/
theorem dput_dput_victim (ht : h.Ready) (hv : h.Victim env path dir di d) :
    (((h.dget dir).dget d.ptr).dput d.ptr).dput dir = h := by
  obtain ⟨x, hx, -⟩ := Ready.exists_dentry hv.inode
  exact dput_dput_of_dLookup ht.nodup hv.lookup ht.pos (by rw [hx]; simp)

/-- The host owns the file that the call removes, and it is not open. -/
def Removable (env : Env) (h : Host) (path : List Bytes) (name : Bytes) : Prop :=
  ∀ dir di d, h.Victim env path dir di d → d.dName = name →
    h.isMyFile d.ptr = .ok true ∧ d.ptr ∉ h.files

section Calls

variable {h' : Host} {err : Option Errno} (ht : h.Tidy pin) (hrem : h.Removable env path name)
include ht hrem

/-- `unlink` returns; it fails and leaves no trace, or removes the file. -/
theorem sysUnlink_eq : ∃ r, h.sysUnlink env path name = .ok r ∧
    (h.NoTrace r.1 ∧ r.2 ≠ none ∨
      r.2 = none ∧ ∃ dir di d i, d.dName = name ∧ h.Victim env path dir di d ∧
        d.dInode = some i ∧ (h.inodes i).isDir = false ∧ r.1 = h.unlinked env dir di i d) := by
  unfold sysUnlink
  have hneg : ∀ (g : Host) di k, g.dInode? k = none →
      ∃ e', g.vfsUnlink env di k = .ok (g, some e') := fun g di k hk =>
    ⟨.enoent, by unfold vfsUnlink; rw [mayDelete_negative hk]⟩
  obtain ⟨g, e', hno, heq⟩ | ⟨dir, di, d, hname, hv, heq⟩ := withVictim_cases ht.ready env path
    name .eisdir (fun h dir dentry => h.vfsUnlink env dir dentry) hneg
  · exact ⟨_, heq, .inl ⟨hno, by simp⟩⟩
  · rw [heq]
    have hd := dentryOf?_of_dLookup ht.sound.nodup hv.lookup
    obtain ⟨i, hi⟩ :=
      Option.isSome_iff_exists.mp (ht.ready.live dir d (hv.mem ht.sound.nodup)).2.2.2
    have hdik : h.dInode? d.ptr = some i := by rw [dInode?, hd]; exact hi
    cases hm : h.mayDelete env di d.ptr false with
    | some e' =>
        unfold vfsUnlink
        simp only [mayDelete_dget, hm, Except.map]
        rw [dput_dput_victim ht.ready hv]
        exact ⟨_, rfl, .inl ⟨⟨_, Nat.le_refl _, rfl⟩, by simp⟩⟩
    | none =>
        obtain ⟨hown, hopen⟩ := hrem dir di d hv hname
        have hdir := isDir_of_mayDelete hdik hm
        rw [vfsUnlink_owned ht hv hi hopen hown hm hdir]
        exact ⟨_, rfl, .inr ⟨rfl, dir, di, d, i, hname, hv, hi, hdir, rfl⟩⟩

theorem sysUnlink_cases (hok : h.sysUnlink env path name = .ok (h', err)) :
    h.NoTrace h' ∧ err ≠ none ∨
      err = none ∧ ∃ dir di d i, d.dName = name ∧ h.Victim env path dir di d ∧
        d.dInode = some i ∧ (h.inodes i).isDir = false ∧ h' = h.unlinked env dir di i d := by
  obtain ⟨r, hr, hcases⟩ := sysUnlink_eq ht hrem
  cases hr.symm.trans hok
  exact hcases

/-- `rmdir` returns; it fails and leaves no trace, or removes the directory. -/
theorem sysRmdir_eq : ∃ r, h.sysRmdir env path name = .ok r ∧
    (h.NoTrace r.1 ∧ r.2 ≠ none ∨
      r.2 = none ∧ ∃ dir di d i, d.dName = name ∧ h.Victim env path dir di d ∧
        d.dInode = some i ∧ (h.inodes i).isDir = true ∧ h.dcache.kids d.ptr = 0 ∧
        r.1 = h.rmdired env dir di i d) := by
  unfold sysRmdir
  have hneg : ∀ (g : Host) di k, g.dInode? k = none →
      ∃ e', g.vfsRmdir env di k = .ok (g, some e') := fun g di k hk =>
    ⟨.enoent, by unfold vfsRmdir; rw [mayDelete_negative hk]⟩
  obtain ⟨g, e', hno, heq⟩ | ⟨dir, di, d, hname, hv, heq⟩ := withVictim_cases ht.ready env path
    name (rmdirNotNorm name) (fun h dir dentry => h.vfsRmdir env dir dentry) hneg
  · exact ⟨_, heq, .inl ⟨hno, by simp⟩⟩
  · rw [heq]
    have hd := dentryOf?_of_dLookup ht.sound.nodup hv.lookup
    obtain ⟨i, hi⟩ :=
      Option.isSome_iff_exists.mp (ht.ready.live dir d (hv.mem ht.sound.nodup)).2.2.2
    have hdik : h.dInode? d.ptr = some i := by rw [dInode?, hd]; exact hi
    cases hm : h.mayDelete env di d.ptr true with
    | some e' =>
        unfold vfsRmdir
        simp only [mayDelete_dget, hm, Except.map]
        rw [dput_dput_victim ht.ready hv]
        exact ⟨_, rfl, .inl ⟨⟨_, Nat.le_refl _, rfl⟩, by simp⟩⟩
    | none =>
        obtain ⟨hown, hopen⟩ := hrem dir di d hv hname
        have hdir := isDir_of_mayDelete hdik hm
        rw [vfsRmdir_owned ht hv hi hopen hown hm]
        split
        · next hempty =>
            exact ⟨_, rfl, .inr ⟨rfl, dir, di, d, i, hname, hv, hi, hdir,
              ht.kids_of_simpleEmpty hempty, rfl⟩⟩
        · exact ⟨_, rfl, .inl ⟨⟨_, Nat.le_refl _, rfl⟩, by simp⟩⟩

theorem sysRmdir_cases (hok : h.sysRmdir env path name = .ok (h', err)) :
    h.NoTrace h' ∧ err ≠ none ∨
      err = none ∧ ∃ dir di d i, d.dName = name ∧ h.Victim env path dir di d ∧
        d.dInode = some i ∧ (h.inodes i).isDir = true ∧ h.dcache.kids d.ptr = 0 ∧
        h' = h.rmdired env dir di i d := by
  obtain ⟨r, hr, hcases⟩ := sysRmdir_eq ht hrem
  cases hr.symm.trans hok
  exact hcases

end Calls

end Host

end Wjfs
