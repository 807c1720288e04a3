import Wjfs.Host.Peer
import Wjfs.Host.Places

/-!
# Wjfs.Host.Grow

What every call and every frame adds to a sane host: a call that makes a file
adds one dentry with the next number, a link one more dentry for a number that
is there, a rename moves one dentry and perhaps the one it replaces, and
everything else adds nothing.
-/

namespace Wjfs

namespace Host

variable {h h' g r : Host} {env : Env} {path : List Bytes} {name : Bytes}
  {p q k i j dir di : Ptr} {d e : Dentry} {n : CInt} {err : Option Errno} {mode : Mode}
  {N M : Ptr → Ptr → CInt → Prop}

/-! ## lookups -/

theorem sysLookup_grown (hs : h.Sane) (hok : h.sysLookup env path name = .ok (h', err)) :
    Grown Nowhere h h' :=
  withName_grown hs hok fun dir di g k r e _ _ hg hr => by
    cases hr
    exact hg

theorem sysSymlink_grown (hs : h.Sane) (hok : h.sysSymlink env path name = .ok (h', err)) :
    Grown Nowhere h h' :=
  withNewName_grown hs hok fun dir di g k r e _ _ hg hr => by
    unfold vfsSymlink wjfsSymlink at hr
    split at hr
    · cases hr
      exact hg
    · cases hr
      exact hg

/-! ## binding an inode -/

/-- A negative dentry gets an inode. -/
theorem Sane.instantiate (hs : h.Sane) (hd : (some p, d) ∈ h.dcache.nodes)
    (hneg : d.dInode = none) (hi : i < h.nextPtr) :
    Grown (fun k p' n => k = d.ptr ∧ p' = p ∧ n = h.number i) h
      (h.mapDcache (·.update d.ptr (Dentry.instantiate i))) := by
  have hn := hs.held.nodup
  have hkeeps : Dcache.Keeps (Dentry.instantiate i) := Dcache.keeps_instantiate i
  have hold : ∀ {x}, x ∈ (h.dcache.update d.ptr (Dentry.instantiate i)).nodes →
      x = (some p, d.instantiate i) ∨ x ∈ h.dcache.nodes := fun {x} hx => by
    rw [Dcache.nodes_update hkeeps] at hx
    obtain ⟨y, hy, rfl⟩ := List.mem_map.mp hx
    by_cases hyd : y.2.ptr = d.ptr
    · obtain rfl : y = (some p, d) := Forest.eq_of_mem_flat hn hy hd hyd
      exact .inl (by simp)
    · exact .inr (by simpa [hyd] using hy)
  have hkeep : ∀ {k j}, h.dInode? k = some j →
      (h.mapDcache (·.update d.ptr (Dentry.instantiate i))).dInode? k = some j := fun {k j} hk => by
    have hne : k ≠ d.ptr := fun heq => by
      rw [heq, dInode?_of_mem (x := (some p, d)) hn hd, hneg] at hk
      cases hk
    unfold Host.dInode? dentryOf? at hk ⊢
    rw [dcache_mapDcache, Dcache.node?_update_ne hkeeps hne]
    exact hk
  have hsource : ∀ {x}, x ∈ (h.dcache.update d.ptr (Dentry.instantiate i)).nodes →
      ∃ y ∈ h.dcache.nodes, y.1 = x.1 ∧ y.2.ptr = x.2.ptr ∧ y.2.dUnhashed = x.2.dUnhashed ∧
        y.2.dName = x.2.dName := fun {x} hx => by
    rcases hold hx with rfl | hx
    · exact ⟨_, hd, rfl, rfl, rfl, rfl⟩
    · exact ⟨x, hx, rfl, rfl, rfl, rfl⟩
  refine ⟨⟨⟨by rw [dcache_mapDcache, Dcache.ptrs_update hkeeps]; exact hn, fun x hx => ?_,
    fun x hx => ?_, fun q a b ha hb hau hbu hname => ?_⟩, fun x hx => ?_, fun x hx => ?_,
    fun x hx j hj => ?_, fun q c hx => ?_⟩,
    fun k q n hl => ?_, fun _ _ => ⟨rfl, rfl⟩, Nat.le_refl _, rfl⟩
  · rcases hold hx with rfl | hx
    · exact hs.held.pos (some p, d) hd
    · exact hs.held.pos x hx
  · rcases hold hx with rfl | hx
    · exact hs.held.dies (some p, d) hd
    · exact hs.held.dies x hx
  · obtain ⟨⟨_, a₀⟩, ha₀, rfl, hap, hau₀, han⟩ := hsource ha
    obtain ⟨⟨_, b₀⟩, hb₀, rfl, hbp, hbu₀, hbn⟩ := hsource hb
    exact hap.symm.trans ((hs.held.distinct _ a₀ b₀ ha₀ hb₀ (hau₀.trans hau) (hbu₀.trans hbu)
      (han.trans (hname.trans hbn.symm))).trans hbp)
  · rcases hold hx with rfl | hx
    · exact hs.unmounted (some p, d) hd
    · exact hs.unmounted x hx
  · rcases hold hx with rfl | hx
    · exact hs.ptr_lt (some p, d) hd
    · exact hs.ptr_lt x hx
  · rcases hold hx with rfl | hx
    · cases hj
      exact hi
    · exact hs.inode_lt x hx j hj
  · obtain ⟨j, hj, hdir⟩ : ∃ j, h.dInode? q = some j ∧ (h.inodes j).isDir = true := by
      rcases hold hx with heq | hx
      · cases heq
        exact hs.dirs p d hd
      · exact hs.dirs q c hx
    exact ⟨j, hkeep hj, hdir⟩
  · obtain ⟨x, hx, j, hxk, hxq, hxj, hnum⟩ := hl
    rcases hold hx with rfl | hx
    · cases hxj
      exact .inr ⟨hxk.symm, hxq.symm, hnum.symm⟩
    · exact .inl ⟨x, hx, j, hxk, hxq, hxj, hnum⟩

/-- `d_instantiate` only gets by on a negative dentry. -/
theorem dInstantiate_grown (hs : h.Sane) (hd : (some p, d) ∈ h.dcache.nodes) (hi : i < h.nextPtr)
    (hok : h.dInstantiate d.ptr i = .ok r) : d.dInode = none ∧
      Grown (fun k p' n => k = d.ptr ∧ p' = p ∧ n = h.number i) h r := by
  unfold dInstantiate at hok
  split at hok
  · cases hok
  · next hneg =>
    cases hok
    rw [dInode?_of_mem (x := (some p, d)) hs.held.nodup hd] at hneg
    have hnone : d.dInode = none := by simpa using hneg
    exact ⟨hnone, hs.instantiate hd hnone hi⟩

/-- A new inode alone. -/
theorem wjfsGetInode_grown (hs : h.Sane) (hok : h.wjfsGetInode env mode = (g, some i)) :
    Grown Nowhere h g ∧ g.dcache = h.dcache ∧ i < g.nextPtr ∧ g.number i = h.lastIno + 1 := by
  unfold wjfsGetInode at hok
  split at hok
  swap
  · cases hok
  cases hok
  have hfile : ∀ j < h.nextPtr, SameFile (if j = h.nextPtr then Inode.fresh (h.lastIno + 1) mode
      else h.inodes j) (h.inodes j) := fun j hj => by
    rw [if_neg (Nat.ne_of_lt hj)]
    exact ⟨rfl, rfl⟩
  refine ⟨⟨⟨hs.held, hs.unmounted, fun x hx => Nat.lt_succ_of_lt (hs.ptr_lt x hx),
    fun x hx j hj => Nat.lt_succ_of_lt (hs.inode_lt x hx j hj), fun p d hd => ?_⟩,
    fun k p n hl => .inl ?_, hfile, Nat.le_succ _, rfl⟩, rfl, Nat.lt_succ_self _, ?_⟩
  · obtain ⟨j, hj, hdir⟩ := hs.dirs p d hd
    obtain ⟨z, hz, hzj⟩ := Ready.exists_dentry hj
    have hlt := hs.inode_lt z (Dcache.mem_nodes_of_node? hz) j hzj
    exact ⟨j, hj, (hfile j hlt).2.trans hdir⟩
  · obtain ⟨x, hx, j, hxk, hxp, hxj, hnum⟩ := hl
    exact ⟨x, hx, j, hxk, hxp, hxj, (hfile j (hs.inode_lt x hx j hxj)).1.symm.trans hnum⟩
  · simp [number, Inode.fresh]

theorem inheritSgid_fades (hs : h.Sane) (dir i : Ptr) (mode : Mode) :
    Fades h (h.inheritSgid dir i mode) := by
  unfold inheritSgid
  split
  · exact .setInode hs i fun _ => ⟨rfl, rfl⟩
  · exact .refl hs

/-- What both `mknod`s do up to the reference they take. -/
theorem mknod_grown (hs : h.Sane) (hd : (some p, d) ∈ h.dcache.nodes)
    (hget : h.wjfsGetInode env mode = (g, some i))
    (hok : (g.inheritSgid dir i mode).dInstantiate d.ptr i = .ok r) : d.dInode = none ∧
      Grown (fun k p' n => k = d.ptr ∧ p' = p ∧ n = h.lastIno + 1) h r := by
  obtain ⟨hg, hdcache, hlt, hnum⟩ := wjfsGetInode_grown hs hget
  have hf := inheritSgid_fades hg.sane dir i mode
  have htree : (g.inheritSgid dir i mode).dcache = h.dcache := by
    rw [← hdcache]
    unfold inheritSgid
    split <;> rfl
  obtain ⟨hneg, hgrown⟩ := dInstantiate_grown (hf.sane hg.sane) (by rw [htree]; exact hd)
    (by rw [hf.next]; exact hlt) hok
  refine ⟨hneg, ((hg.fades hf).after hgrown).mono fun k p' n hN => ⟨hN.1, hN.2.1, ?_⟩⟩
  rw [hN.2.2]
  exact (hf.file i).1.trans hnum

theorem wjfsMknod_grown (hs : h.Sane) (hd : (some p, d) ∈ h.dcache.nodes)
    (hok : h.wjfsMknod env dir d.ptr mode = .ok (r, err)) : d.dInode = none ∧
      Grown (fun k p' n => k = d.ptr ∧ p' = p ∧ n = h.lastIno + 1) h r := by
  unfold wjfsMknod at hok
  split at hok
  · cases hok
  · next g i hget =>
    obtain ⟨g', hinst, hok⟩ := bind_eq_ok hok
    obtain ⟨⟨ino, name, inoParent, nameParent⟩, -, hok⟩ := bind_eq_ok hok
    cases hok
    obtain ⟨hneg, hg⟩ := mknod_grown hs hd hget hinst
    have hget := hg.fades (.dget hg.sane d.ptr)
    exact ⟨hneg, hget.fades (.send hget.sane _)⟩

/-- What the calls that make a file add: one dentry that had no inode, with
the next number. -/
def Made (h : Host) (k _p : Ptr) (n : CInt) : Prop := h.dInode? k = none ∧ n = h.lastIno + 1

section Make

variable {call : Host → Ptr → Ptr → Outcome}

/-- The shape that `vfs_create`, `vfs_mknod` and `vfs_mkdir` share. -/
theorem make_grown (hs : h.Sane) (hok : h.withNewName env path name call = .ok (h', err))
    (hcall : ∀ g di k r e, g.Sane → call g di k = .ok (r, e) → r = g ∨
      ∃ r' e' mode, g.wjfsMknod env di k mode = .ok (r', e') ∧ (r'.Sane → Fades r' r)) :
    Grown h.Made h h' := by
  refine withNewName_grown hs hok fun dir di g k r e hw hl hg hr => ?_
  obtain rfl | ⟨r', e', mode, hmk, hf⟩ := hcall g di k r e hg.sane hr
  · exact hg.mono fun _ _ _ => False.elim
  obtain ⟨i, hi, hdir⟩ := isDir_of_walk hw
  have hs1 : (h.dget dir).Sane := hs.dget dir
  obtain ⟨d, hd, rfl, -, -, hdi⟩ := hl.node hs1 (by simpa using hi)
  obtain ⟨hneg, hgrown⟩ := wjfsMknod_grown hg.sane hd hmk
  refine (hg.after (hgrown.fades (hf hgrown.sane))).mono fun k p n hN => ⟨?_, ?_⟩
  · rw [hN.1, ← dInode?_dget (k := dir), hdi, hneg]
  · rw [hN.2.2, hl.lastIno]
    rfl

end Make

theorem sysCreate_grown (hs : h.Sane) {perm : BitVec 12}
    (hok : h.sysCreate env path name perm = .ok (h', err)) : Grown h.Made h h' := by
  refine make_grown hs hok fun g di k r e hg hr => ?_
  unfold vfsCreate at hr
  split at hr
  · cases hr
    exact .inl rfl
  · exact .inr ⟨r, e, _, hr, .refl⟩

theorem sysMknod_grown (hs : h.Sane) {special : Special} {perm : BitVec 12}
    (hok : h.sysMknod env path name special perm = .ok (h', err)) : Grown h.Made h h' := by
  refine make_grown hs hok fun g di k r e hg hr => ?_
  unfold vfsMknod at hr
  split at hr
  · cases hr
    exact .inl rfl
  · exact .inr ⟨r, e, _, hr, .refl⟩

theorem sysMkdir_grown (hs : h.Sane) {perm : BitVec 12}
    (hok : h.sysMkdir env path name perm = .ok (h', err)) : Grown h.Made h h' := by
  refine make_grown hs hok fun g di k r e hg hr => ?_
  unfold vfsMkdir wjfsMkdir at hr
  split at hr
  · cases hr
    exact .inl rfl
  · obtain ⟨⟨r', e'⟩, hmk, hr⟩ := bind_eq_ok hr
    refine .inr ⟨r', e', _, hmk, fun hs' => ?_⟩
    by_cases he : e' = none
    · simp only [if_pos he] at hr
      cases hr
      exact .setInode hs' di fun _ => ⟨rfl, rfl⟩
    · simp only [if_neg he] at hr
      cases hr
      exact .refl hs'

/-! ## links -/

/-- What `link` adds: a dentry that had no inode, in the directory that the new
path leads to, with the number of the file that the old path names. -/
def Shared (env : Env) (h : Host) (oldPath : List Bytes) (oldName : Bytes) (path : List Bytes)
    (k p : Ptr) (n : CInt) : Prop :=
  h.dInode? k = none ∧ h.walk env h.root path = .ok p ∧ ∃ o d, h.walk env h.root oldPath = .ok o ∧
    h.dcache.dLookup o oldName = some d ∧ h.Lies d.ptr o n

theorem wjfsLink_grown (hs : h.Sane) (hd : (some p, d) ∈ h.dcache.nodes)
    (hok : h.wjfsLink k d.ptr = .ok (r, err)) : d.dInode = none ∧
      ∃ i, h.dInode? k = some i ∧
        Grown (fun k' p' n => k' = d.ptr ∧ p' = p ∧ n = h.number i) h r := by
  unfold wjfsLink at hok
  cases hi : h.dInode? k with
  | none =>
      rw [hi] at hok
      cases hok
  | some i =>
      rw [hi] at hok
      obtain ⟨g, hinst, hok⟩ := bind_eq_ok hok
      cases hok
      have hf₁ : Fades h (h.setInode i Inode.incNlink) := .setInode hs i fun _ => ⟨rfl, rfl⟩
      have hf := hf₁.trans (.dget (hf₁.sane hs) d.ptr)
      obtain ⟨x, hx, hxi⟩ := Ready.exists_dentry hi
      have hlt := hs.inode_lt x (Dcache.mem_nodes_of_node? hx) i hxi
      have hd' : (some p, d.get) ∈ ((h.setInode i Inode.incNlink).dget d.ptr).dcache.nodes := by
        rw [dcache_dget, dcache_setInode, Dcache.dget, Dcache.nodes_update Dcache.keeps_get]
        exact List.mem_map.mpr ⟨_, hd, by simp⟩
      obtain ⟨hneg, hg⟩ := dInstantiate_grown (hf.sane hs) hd' (by rw [hf.next]; exact hlt) hinst
      refine ⟨hneg, i, rfl, ((hs.grown_of_fades hf).after hg).mono fun k' p' n hN => ?_⟩
      exact ⟨hN.1, hN.2.1, hN.2.2.trans (hf.file i).1⟩

/-- A link when it gets to `wjfs_link`: both paths were walked, the old name
has a file that is no directory, and the new name has none. -/
structure Linking (env : Env) (h : Host) (oldPath : List Bytes) (oldName : Bytes)
    (path : List Bytes) (name : Bytes) (o dir di i : Ptr) (d : Dentry) (g : Host) (k : Ptr) :
    Prop where
  old : h.walk env h.root oldPath = .ok o
  found : (h.dget o).dcache.dLookup o d.dName = some d
  oldName : d.dName = oldName
  inode : d.dInode = some i
  file : (h.inodes i).isDir = false
  new : h.walk env h.root path = .ok dir
  newDir : h.dInode? dir = some di
  isDir : (h.inodes di).isDir = true
  looked : (((h.dget o).dget d.ptr).dget dir).Looked dir name g k
  neg : g.dInode? k = none

section Link

variable {oldPath : List Bytes} {oldName : Bytes} {o : Ptr}

/-- What was done up to `wjfs_link` adds nothing. -/
theorem Linking.grown (hL : h.Linking env oldPath oldName path name o dir di i d g k)
    (hs : h.Sane) : Grown Nowhere h g := by
  have hs₁ := hs.dget o
  have hs₂ := hs₁.dget d.ptr
  have hf := ((Fades.dget hs o).trans (.dget hs₁ d.ptr)).trans (.dget hs₂ dir)
  exact (hs.grown_of_fades hf).after
    (hL.looked.grown (hs₂.dget dir) (by simpa using hL.newDir) hL.isDir)

/-- A link fails and adds nothing, or is `wjfs_link` of two dentries, with four
references given back afterwards. -/
theorem Sane.sysLink_inv (hs : h.Sane)
    (hok : h.sysLink env oldPath oldName path name = .ok (h', err)) :
    err ≠ none ∧ Grown Nowhere h h' ∨ ∃ o dir di i d g k r,
      h.Linking env oldPath oldName path name o dir di i d g k ∧
      g.wjfsLink d.ptr k = .ok (r, err) ∧ h' = (((r.dput k).dput dir).dput d.ptr).dput o := by
  obtain ⟨herr, rfl⟩ | ⟨o, r₁, hw, hr₁, rfl⟩ := withParent_ok hok
  · exact .inl ⟨herr, .refl hs⟩
  have hs₁ := hs.dget o
  have hget : Grown Nowhere h (h.dget o) := hs.grown_of_fades (.dget hs o)
  obtain ⟨herr, hg⟩ | ⟨g, k, r₂, hl, hr₂, rfl⟩ := withDentry_ok hs₁ hr₁
  · exact .inl ⟨herr, (hget.after hg).dput o⟩
  obtain ⟨oi, hoi, hodir⟩ := isDir_of_walk hw
  have hoi₁ : (h.dget o).dInode? o = some oi := by simpa using hoi
  have hg : Grown Nowhere h g := hget.after (hl.grown hs₁ hoi₁ hodir)
  split at hr₂
  · cases hr₂
    exact .inl ⟨Option.some_ne_none _, (hg.dput k).dput o⟩
  next hsome =>
  cases hl with
  | miss =>
      -- a negative dentry has no second name
      obtain ⟨x, hx, -⟩ := Ready.exists_dentry hoi₁
      rw [dInode?_looked_new hs₁.held.nodup hx hs₁.nextPtr_not_mem] at hsome
      exact absurd rfl hsome
  | @hit d hl hname =>
  have hs₂ := hs₁.dget d.ptr
  obtain ⟨herr, hg'⟩ | ⟨dir, di, g', k', r₃, hw', hdi, hdir, hl', hneg, hr₃, rfl⟩ :=
    withNewName_ok hs₂ hr₂
  · exact .inl ⟨herr, ((hg.after hg').dput _).dput o⟩
  obtain ⟨i, hi⟩ : ∃ i, d.dInode = some i := by
    refine Option.ne_none_iff_exists'.mp fun hnone => hsome ?_
    rw [dInode?_dget, Host.dInode?, dentryOf?_of_dLookup hs₁.held.nodup hl]
    exact congrArg Option.isNone hnone
  have hdi₂ : (((h.dget o).dget d.ptr).dget dir).dInode? dir = some di := by simpa using hdi
  have hs₃ := hs₂.dget dir
  have hik : (((h.dget o).dget d.ptr).dget dir).dInode? d.ptr = some i := by
    rw [dInode?_dget, dInode?_dget, Host.dInode?, dentryOf?_of_dLookup hs₁.held.nodup hl]
    exact hi
  have hik' := hl'.dInode? hs₃.held.nodup hs₃.nextPtr_not_mem hdi₂ hik
  have hg₃ := hl'.grown hs₃ hdi₂ hdir
  have hfail : ∀ {e : Errno}, some e ≠ none ∧
      Grown Nowhere h ((((g'.dput k').dput dir).dput d.ptr).dput o) := fun {e} =>
    ⟨Option.some_ne_none _,
      ((((hg.fades (.dget hs₂ dir)).after hg₃).dput k').dput dir).dput d.ptr |>.dput o⟩
  have hinodes : g'.inodes i = h.inodes i := by cases hl' <;> rfl
  unfold vfsLink at hr₃
  simp only [inodeOf?, hik', Option.map_some] at hr₃
  split at hr₃
  · cases hr₃
    exact .inl hfail
  split at hr₃
  · cases hr₃
    exact .inl hfail
  next hfile =>
  refine .inr ⟨o, dir, di, i, d, g', k', r₃, ⟨hw, hl, hname, hi, ?_, ?_, by simpa using hdi, hdir,
    hl', hneg⟩, hr₃, rfl⟩
  · rw [← hinodes]
    simpa using hfile
  · rw [walk_dget, walk_dget] at hw'
    exact hw'

theorem sysLink_grown (hs : h.Sane)
    (hok : h.sysLink env oldPath oldName path name = .ok (h', err)) :
    Grown (h.Shared env oldPath oldName path) h h' := by
  obtain ⟨-, hg⟩ | ⟨o, dir, di, i, d, g, k, r, hL, hr, rfl⟩ := hs.sysLink_inv hok
  · exact hg.mono fun _ _ _ => False.elim
  have hg := hL.grown hs
  refine (((Grown.dput ?_ k).dput dir).dput d.ptr).dput o
  obtain ⟨c, hc, hcd⟩ := exists_dLookup_of_dget hL.found
  have hcp : d.ptr = c.ptr := by rw [hcd]; split <;> rfl
  have hs₃ := ((hs.dget o).dget d.ptr).dget dir
  obtain ⟨e, he, rfl, -, -, hei⟩ := hL.looked.node hs₃ (by simpa using hL.newDir)
  obtain ⟨hneg, i', hi', hgrown⟩ := wjfsLink_grown hg.sane he hr
  refine (hg.after hgrown).mono fun k' p' n hN => ?_
  obtain ⟨rfl, rfl, rfl⟩ := hN
  refine ⟨?_, hL.new, o, c, hL.old, hL.oldName ▸ hc, ?_⟩
  · simp only [dInode?_dget, hneg] at hei
    exact hei
  · -- the old name is still where it was looked up
    obtain ⟨p', hp'⟩ := lies_of_dInode? hi'
    have hlies := (hg.places _ _ _ hp').resolve_right id
    have hmem := Dcache.mem_nodes_of_dLookup hs.held.nodup hc
    obtain ⟨x, hx, j, hxk, -, hxj, hnum⟩ := hlies
    obtain rfl : x = (some o, c) := Forest.eq_of_mem_flat hs.held.nodup hx hmem (hxk.trans hcp)
    exact ⟨_, hx, j, rfl, rfl, hxj, hnum⟩

end Link

/-! ## removals -/

theorem wjfsUnlink_fades (hs : h.Sane) (hok : h.wjfsUnlink env dir k = .ok (r, err)) :
    Fades h r := by
  unfold wjfsUnlink at hok
  obtain ⟨mine, -, hok⟩ := bind_eq_ok hok
  cases mine with
  | false =>
      cases hok
      exact .refl hs
  | true =>
      simp only [if_true] at hok
      split at hok
      · cases hok
      · next i hi =>
        obtain ⟨⟨ino, name, inoParent, nameParent⟩, -, hok⟩ := bind_eq_ok hok
        cases hok
        have hf₁ : Fades h (h.setInode i Inode.dropNlink) := .setInode hs i fun _ => ⟨rfl, rfl⟩
        have hf := hf₁.trans (.dput (hf₁.sane hs) k)
        exact hf.trans (.send (hf.sane hs) _)

/-- `d_delete` of what is no directory or has another user. -/
theorem dDelete_fades (hs : h.Sane)
    (hfile : ∀ x ∈ h.dcache.nodes, x.2.ptr = k → x.2.dCount = 1 → ∀ i, x.2.dInode = some i →
      (h.inodes i).isDir = false) : Fades h (h.mapDcache (·.dDelete k)) := by
  refine .mapDcache (Dcache.Fades.update hs.held (Dcache.keeps_iput.ite Dcache.keeps_drop)
    fun x hx hxk => ?_)
  by_cases hc : x.2.dCount = 1
  · rw [if_pos hc]
    exact ⟨⟨rfl, rfl, fun h => ⟨h, rfl⟩, .inr ⟨rfl, hfile x hx hxk hc⟩⟩, hs.held.pos x hx,
      hs.held.dies x hx⟩
  · rw [if_neg hc]
    exact ⟨⟨rfl, rfl, fun h => (by cases h), .inl rfl⟩, hs.held.pos x hx, .inr rfl⟩

theorem vfsUnlink_fades (hs : h.Sane) (hok : h.vfsUnlink env dir k = .ok (r, err)) :
    Fades h r := by
  unfold vfsUnlink at hok
  cases hm : h.mayDelete env dir k false with
  | some e =>
      rw [hm] at hok
      cases hok
      exact .refl hs
  | none =>
  rw [hm] at hok
  simp only at hok
  split at hok
  · cases hok
    exact .refl hs
  obtain ⟨⟨g, e⟩, hu, hok⟩ := bind_eq_ok hok
  have hf := wjfsUnlink_fades hs hu
  cases e with
  | some e =>
      cases hok
      exact hf
  | none =>
      cases hok
      refine hf.trans (dDelete_fades (hf.sane hs) fun y hy hyk _ i hi => ?_)
      -- `may_delete` made sure that it is no directory
      obtain ⟨x, hx, -, hptr, -, -, heq | ⟨hnone, -⟩⟩ := hf.tree.origin y hy
      · have hik : h.dInode? k = some i := by
          rw [← hyk, hptr, dInode?_of_mem hs.held.nodup hx, ← heq, hi]
        rw [(hf.file i).2]
        exact isDir_of_mayDelete hik hm
      · rw [hnone] at hi
        cases hi

theorem sysUnlink_grown (hs : h.Sane) (hok : h.sysUnlink env path name = .ok (h', err)) :
    Grown Nowhere h h' :=
  withName_grown hs hok fun _ _ _ _ _ _ _ _ hg hr => hg.fades (vfsUnlink_fades hg.sane hr)

/-- `wjfs_rmdir` on a dentry that the VFS holds twice. -/
theorem wjfsRmdir_fades (hs : h.Sane) (hc : h.dcache.AtLeast k 3)
    (hok : h.wjfsRmdir env dir k = .ok (r, err)) : Fades h r ∧ r.dcache.AtLeast k 2 := by
  have hsame : Fades h h ∧ h.dcache.AtLeast k 2 :=
    ⟨.refl hs, fun x hx hxk => Int.le_trans (by decide) (hc x hx hxk)⟩
  unfold wjfsRmdir at hok
  obtain ⟨mine, -, hok⟩ := bind_eq_ok hok
  cases mine with
  | false =>
      cases hok
      exact hsame
  | true =>
      simp only [if_true] at hok
      split at hok
      · cases hok
        exact hsame
      split at hok
      · cases hok
      · next i hi =>
        obtain ⟨⟨ino, name, inoParent, nameParent⟩, -, hok⟩ := bind_eq_ok hok
        cases hok
        obtain ⟨x, hx, -⟩ := Ready.exists_dentry hi
        have hf₁ : Fades h (h.setInode i Inode.dropNlink) := .setInode hs i fun _ => ⟨rfl, rfl⟩
        have hf₂ := hf₁.trans (.setInode (hf₁.sane hs) i (f := Inode.dropNlink) fun _ => ⟨rfl, rfl⟩)
        have hf₃ := hf₂.trans (.dput (hf₂.sane hs) k)
        have hf₄ := hf₃.trans
          (.setInode (hf₃.sane hs) dir (f := Inode.dropNlink) fun _ => ⟨rfl, rfl⟩)
        refine ⟨hf₄.trans (.send (hf₄.sane hs) _), ?_⟩
        rw [dcache_send]
        exact hc.dput (by decide) (Dcache.mem_ptrs_of_node? hx)

theorem vfsRmdir_fades (hs : h.Sane) (hd : (some p, d) ∈ h.dcache.nodes)
    (hc : d.dInode.isSome = true → 2 ≤ d.dCount)
    (hok : h.vfsRmdir env dir d.ptr = .ok (r, err)) : Fades h r := by
  have hn := hs.held.nodup
  unfold vfsRmdir at hok
  cases hm : h.mayDelete env dir d.ptr true with
  | some e =>
      rw [hm] at hok
      cases hok
      exact .refl hs
  | none =>
  rw [hm] at hok
  have hsome : d.dInode.isSome = true := by
    by_contra hnone
    have hi : d.dInode = none := by simpa using hnone
    simp [mayDelete, inodeOf?, dInode?_of_mem (x := (some p, d)) hn hd, hi] at hm
  have h2 := hc hsome
  -- `dentry_unhash` sees another user, and so does `d_delete`
  have hun : h.mapDcache (·.dentryUnhash d.ptr) = h.dget d.ptr :=
    mapDcache_congr (Dcache.dentryUnhash_of_ne_one hn (Dcache.node?_of_mem hn hd)
      (by simp only; omega))
  have hatl : (h.dget d.ptr).dcache.AtLeast d.ptr 3 := by
    refine Dcache.AtLeast.dget (c := 2) fun x hx hxk => ?_
    obtain rfl : x = (some p, d) := Forest.eq_of_mem_flat hn hx hd hxk
    exact h2
  have hget := Fades.dget hs d.ptr
  have hgets := hget.sane hs
  simp only [hun] at hok
  obtain ⟨⟨g, e⟩, hr, hok⟩ := bind_eq_ok hok
  cases hok
  have hg : Fades (h.dget d.ptr) g := by
    unfold rmdirUnhashed at hr
    split at hr
    · cases hr
      exact .refl hgets
    obtain ⟨⟨g₁, e₁⟩, hw, hr⟩ := bind_eq_ok hr
    obtain ⟨hf, hatl₁⟩ := wjfsRmdir_fades hgets hatl hw
    cases e₁ with
    | some e₁ =>
        cases hr
        exact hf
    | none =>
        simp only [withInode] at hr
        split at hr
        · cases hr
        · next i hi =>
          cases hr
          have hf₁ := hf.trans
            (.setInode (hf.sane hgets) i (f := Inode.setDead) fun _ => ⟨rfl, rfl⟩)
          refine hf₁.trans (dDelete_fades (hf₁.sane hgets) fun x hx hxk h1 => ?_)
          have := hatl₁ x hx hxk
          omega
  exact (hget.trans hg).trans (.dput (hg.sane hgets) _)

theorem sysRmdir_grown (hs : h.Sane) (hok : h.sysRmdir env path name = .ok (h', err)) :
    Grown Nowhere h h' :=
  withName_grown hs hok fun dir di g k r e hw hl hg hr => by
    obtain ⟨i, hi, -⟩ := isDir_of_walk hw
    obtain ⟨d, hd, rfl, -, hc, -⟩ := hl.node (hs.dget dir) (by simpa using hi)
    exact hg.fades (vfsRmdir_fades hg.sane hd hc hr)

/-! ## renaming -/

/-- `d_move` puts the two dentries where the other one was. -/
theorem Sane.dMove (hs : h.Sane) (hd : (some p, d) ∈ h.dcache.nodes)
    (he : (some q, e) ∈ h.dcache.nodes) (hop : d.dOp = true) (hhash : e.dUnhashed = false)
    (ha : h.dcache.Apart p q d.ptr e.ptr) :
    Grown (fun k p' n => k = d.ptr ∧ p' = q ∧ h.Lies d.ptr p n ∨
      k = e.ptr ∧ p' = p ∧ h.Lies e.ptr q n) h (h.mapDcache (·.dMove d.ptr e.ptr)) := by
  obtain ⟨hheld, hptrs, hmem⟩ := hs.held.dMove hd he hop hhash ha
  have hn := hs.held.nodup
  -- every dentry keeps its inode, wherever it is now
  have hold : ∀ {y}, y ∈ (h.dcache.dMove d.ptr e.ptr).nodes → ∃ x ∈ h.dcache.nodes,
      x.2.ptr = y.2.ptr ∧ x.2.dInode = y.2.dInode ∧ x.2.dMounted = y.2.dMounted := fun {y} hy => by
    rcases hmem y hy with rfl | rfl | ⟨hy, -⟩
    · exact ⟨_, hd, rfl, rfl, rfl⟩
    · exact ⟨_, he, rfl, rfl, rfl⟩
    · exact ⟨y, hy, rfl, rfl, rfl⟩
  have hkeep : ∀ k, (h.mapDcache (·.dMove d.ptr e.ptr)).dInode? k = h.dInode? k := fun k => by
    by_cases hk : k ∈ h.dcache.ptrs
    · obtain ⟨y, hy, rfl⟩ := Forest.exists_mem_flat (hptrs.mem_iff.mpr hk) none
      obtain ⟨x, hx, hxy, hi, -⟩ := hold hy
      rw [dInode?_of_mem (g := h.mapDcache (·.dMove d.ptr e.ptr)) hheld.nodup hy, ← hxy,
        dInode?_of_mem hn hx, hi]
    · have hnone : (h.mapDcache (·.dMove d.ptr e.ptr)).dcache.node? k = none :=
        Dcache.node?_eq_none_iff.mpr fun hk' => hk (hptrs.mem_iff.mp hk')
      simp only [Host.dInode?, dentryOf?, hnone, Dcache.node?_eq_none_iff.mpr hk]
  refine ⟨⟨hheld, fun y hy => ?_, fun y hy => ?_, fun y hy i hi => ?_, fun p' c hy => ?_⟩,
    fun k p' n hl => ?_, fun _ _ => ⟨rfl, rfl⟩, Nat.le_refl _, rfl⟩
  · obtain ⟨x, hx, -, -, hm⟩ := hold hy
    exact hm.symm.trans (hs.unmounted x hx)
  · obtain ⟨x, hx, hxy, -⟩ := hold hy
    rw [← hxy]
    exact hs.ptr_lt x hx
  · obtain ⟨x, hx, -, hxi, -⟩ := hold hy
    exact hs.inode_lt x hx i (hxi.trans hi)
  · rw [hkeep]
    rcases hmem _ hy with heq | heq | ⟨hy, -⟩
    · cases heq
      exact hs.dirs q e he
    · cases heq
      exact hs.dirs p d hd
    · exact hs.dirs p' c hy
  · obtain ⟨y, hy, i, hyk, hyp, hyi, hnum⟩ := hl
    rcases hmem y hy with rfl | rfl | ⟨hy, -⟩
    · exact .inr (.inl ⟨hyk.symm, hyp.symm, _, hd, i, rfl, rfl, hyi, hnum⟩)
    · exact .inr (.inr ⟨hyk.symm, hyp.symm, _, he, i, rfl, rfl, hyi, hnum⟩)
    · exact .inl ⟨y, hy, i, hyk, hyp, hyi, hnum⟩

/-- The two dentries that a rename is about, as the tree has them when
`vfs_rename` is called: the new name is free, or its dentry is held by the
call. -/
structure Pair (g : Host) (p q : Ptr) (d e : Dentry) : Prop where
  old : (some p, d) ∈ g.dcache.nodes
  new : (some q, e) ∈ g.dcache.nodes
  op : d.dOp = true
  hashed : e.dUnhashed = false
  count : e.dInode.isSome = true → 2 ≤ e.dCount
  apart : g.dcache.Apart p q d.ptr e.ptr

theorem movedInodes_fades (hs : h.Sane) (oi ni : Ptr) (target : Option Ptr) (dir : Bool) :
    Fades h (h.movedInodes oi ni target dir) := by
  have hset : ∀ {g : Host} {i : Ptr} {f : Inode → Inode}, Fades h g → (∀ n, SameFile (f n) n) →
      Fades h (g.setInode i f) := fun hf hsame => hf.trans (.setInode (hf.sane hs) _ hsame)
  unfold movedInodes
  split
  · exact .refl hs
  · exact hset (hset (.refl hs) fun _ => ⟨rfl, rfl⟩) fun _ => ⟨rfl, rfl⟩
  · exact hset (.refl hs) fun _ => ⟨rfl, rfl⟩
  · exact hset (hset (hset (.refl hs) fun _ => ⟨rfl, rfl⟩) fun _ => ⟨rfl, rfl⟩) fun _ => ⟨rfl, rfl⟩

theorem dcache_movedInodes (oi ni : Ptr) (target : Option Ptr) (dir : Bool) :
    (h.movedInodes oi ni target dir).dcache = h.dcache := by
  unfold movedInodes
  split <;> rfl

/-- What changes places in a rename. -/
def Swapped (g : Host) (p q : Ptr) (d e : Dentry) (k dir : Ptr) (n : CInt) : Prop :=
  k = d.ptr ∧ dir = q ∧ g.Lies d.ptr p n ∨ k = e.ptr ∧ dir = p ∧ g.Lies e.ptr q n

/-- The move itself, after something was done to the target. -/
theorem Pair.dMove (hs : g.Sane) (hP : g.Pair p q d e) {f : Dentry → Dentry}
    (hf : Dcache.Keeps f) (hhash : (f e).dUnhashed = false)
    (hfade : Fades g (g.mapDcache (·.update e.ptr f))) :
    Grown (g.Swapped p q d e) g (g.mapDcache fun t => (t.update e.ptr f).dMove d.ptr e.ptr) ∧
      ∃ e', (some p, e') ∈ ((g.dcache.update e.ptr f).dMove d.ptr e.ptr).nodes ∧
        e'.ptr = e.ptr ∧ e'.dCount = (f e).dCount := by
  have hs₁ := hfade.sane hs
  have hd : (some p, d) ∈ (g.dcache.update e.ptr f).nodes := by
    rw [Dcache.nodes_update hf]
    exact List.mem_map.mpr ⟨_, hP.old, by simp [hP.apart.ne]⟩
  have he : (some q, f e) ∈ (g.dcache.update e.ptr f).nodes := by
    rw [Dcache.nodes_update hf]
    exact List.mem_map.mpr ⟨_, hP.new, by simp⟩
  have ha : (g.dcache.update e.ptr f).Apart p q d.ptr (f e).ptr := by
    rw [hf e]
    exact hP.apart.update hf
  have hmoved := hs₁.dMove hd he hP.op hhash ha
  have hmem := Dcache.mem_nodes_dMove hs₁.held.nodup hd he ha
  rw [hf e] at hmoved hmem
  refine ⟨((hs.grown_of_fades hfade).after hmoved).mono fun k dir n => ?_, _, hmem, hf e, rfl⟩
  exact Or.imp (fun hN => ⟨hN.1, hN.2.1, hfade.lies hN.2.2⟩)
    fun hN => ⟨hN.1, hN.2.1, hfade.lies hN.2.2⟩

/-- The four shapes of the tree after a rename: the references to the target
change, the two dentries change places, and at most one more reference to the
target is dropped.  A target with an inode ends with one reference less. -/
theorem Pair.shape (hs : g.Sane) (hP : g.Pair p q d e) (dir : Bool) :
    ∃ f : Dentry → Dentry, Dcache.Keeps f ∧ ((f e).dUnhashed = false ∧ (f e).dName = e.dName) ∧
      Fades g (g.mapDcache (·.update e.ptr f)) ∧
      (movedTree g.dcache d.ptr e.ptr e.dInode.isSome dir =
          (g.dcache.update e.ptr f).dMove d.ptr e.ptr ∧
          (e.dInode.isSome = true → (f e).dCount = e.dCount - 1) ∨
        movedTree g.dcache d.ptr e.ptr e.dInode.isSome dir =
          ((g.dcache.update e.ptr f).dMove d.ptr e.ptr).dput e.ptr ∧
          (e.dInode.isSome = true → (f e).dCount = e.dCount)) := by
  have hid : g.dcache.update e.ptr (fun d => d) = g.dcache := Dcache.update_id
  have hstay : Fades g (g.mapDcache (·.update e.ptr fun d => d)) := .mapDcache (by
    simp only [hid]
    exact .refl hs.held)
  cases ht : e.dInode.isSome with
  | false =>
      cases dir with
      | true =>
          exact ⟨fun d => d, fun _ => rfl, ⟨hP.hashed, rfl⟩, hstay,
            .inl ⟨by rw [hid]; rfl, fun h => (by cases h)⟩⟩
      | false =>
          exact ⟨Dentry.get, Dcache.keeps_get, ⟨hP.hashed, rfl⟩, .dget hs e.ptr,
            .inr ⟨rfl, fun h => (by cases h)⟩⟩
  | true =>
      cases dir with
      | false =>
          exact ⟨fun d => d, fun _ => rfl, ⟨hP.hashed, rfl⟩, hstay,
            .inr ⟨by rw [hid]; rfl, fun _ => rfl⟩⟩
      | true =>
          have h2 := hP.count ht
          have hdput : g.dcache.dput e.ptr = g.dcache.update e.ptr Dentry.dec :=
            Dcache.dput_of_ne_one (Dcache.node?_of_mem hs.held.nodup hP.new)
              (by simp only; omega)
          refine ⟨Dentry.dec, Dcache.keeps_dec, ⟨hP.hashed, rfl⟩, .mapDcache ?_,
            .inl ⟨by rw [← hdput]; rfl, fun _ => rfl⟩⟩
          simp only [← hdput]
          exact .dput hs.held e.ptr

/-- The tree after a rename: the two dentries have changed places, and a target
that nobody but the filesystem and the call held has one reference left. -/
theorem movedTree_grown (hs : g.Sane) (hP : g.Pair p q d e) (dir : Bool) :
    Grown (g.Swapped p q d e) g
        (g.mapDcache fun t => movedTree t d.ptr e.ptr e.dInode.isSome dir) ∧
      (e.dInode.isSome = true → e.dCount = 2 →
        ∃ e', (some p, e') ∈ (movedTree g.dcache d.ptr e.ptr e.dInode.isSome dir).nodes ∧
          e'.ptr = e.ptr ∧ e'.dCount = 1) := by
  obtain ⟨f, hf, ⟨hhash, -⟩, hfade, ⟨htree, hc⟩ | ⟨htree, hc⟩⟩ := hP.shape hs dir
  · obtain ⟨hmove, e₁, he₁, hptr₁, hc₁⟩ := hP.dMove hs hf hhash hfade
    rw [mapDcache_congr (G := fun t => (t.update e.ptr f).dMove d.ptr e.ptr) htree, htree]
    refine ⟨hmove, fun ht h2 => ⟨e₁, he₁, hptr₁, ?_⟩⟩
    rw [hc₁, hc ht, h2]
    rfl
  · obtain ⟨hmove, e₁, he₁, hptr₁, hc₁⟩ := hP.dMove hs hf hhash hfade
    rw [mapDcache_congr (G := fun t => ((t.update e.ptr f).dMove d.ptr e.ptr).dput e.ptr) htree,
      htree]
    refine ⟨hmove.dput e.ptr, fun ht h2 => ⟨e₁.dec, ?_, hptr₁, ?_⟩⟩
    · -- the reference that `vfs_rename_other` dropped
      have hnode : ((g.dcache.update e.ptr f).dMove d.ptr e.ptr).node? e.ptr =
          some (some p, e₁) := hptr₁ ▸ Dcache.node?_of_mem hmove.sane.held.nodup he₁
      rw [Dcache.dput_of_ne_one hnode (by simp only [hc₁, hc ht, h2]; decide)]
      exact Dcache.mem_nodes_of_node? (Dcache.node?_update_self Dcache.keeps_dec hnode)
    · simp only [Dentry.dec, hc₁, hc ht, h2]
      rfl

/-- `vfs_rename` and the `dput` of the target after it. -/
theorem vfsRename_grown (hs : g.Sane) (hP : g.Pair p q d e) (hsome : d.dInode = some i)
    (hok : g.vfsRename env dir d.ptr di e.ptr = .ok (r, err)) :
    Grown (fun k dir n => g.Swapped p q d e k dir n ∧ (k = e.ptr → e.dCount ≠ 2)) g
      (r.dput e.ptr) := by
  rcases vfsRename_cases hs.held.nodup hP.old (hs.unmounted _ hP.old) hsome hP.new
    (hs.unmounted _ hP.new) hP.hashed (hs.held.pos _ hP.new)
    (fun h => by have := hP.count h; omega) hok with ⟨rfl, -⟩ | ⟨-, -, -, rfl, -⟩
  · exact hs.grown_of_fades (.dput hs _)
  have hf := movedInodes_fades hs dir di e.dInode (g.inodes i).isDir
  have hs₁ := hf.sane hs
  have hdc := dcache_movedInodes (h := g) dir di e.dInode (g.inodes i).isDir
  have hP₁ : (g.movedInodes dir di e.dInode (g.inodes i).isDir).Pair p q d e :=
    ⟨by rw [hdc]; exact hP.old, by rw [hdc]; exact hP.new, hP.op, hP.hashed, hP.count,
      by rw [hdc]; exact hP.apart⟩
  obtain ⟨hmoved, hlast⟩ := movedTree_grown hs₁ hP₁ (g.inodes i).isDir
  have hgrown := ((hs.grown_of_fades hf).after hmoved).dput e.ptr
  refine ⟨hgrown.sane, fun k dir n hl => ?_, hgrown.file, hgrown.next, hgrown.table⟩
  refine (hgrown.places k dir n hl).imp_right fun hN => ⟨?_, fun hk hc => ?_⟩
  · exact hN.imp (fun hN => ⟨hN.1, hN.2.1, hf.lies hN.2.2⟩)
      fun hN => ⟨hN.1, hN.2.1, hf.lies hN.2.2⟩
  · -- a target with an inode and no other user is gone
    obtain ⟨y, hy, j, hyk, -, hyj, -⟩ := hl
    have hesome : e.dInode.isSome = true := by
      by_contra hnone
      have hneg : e.dInode = none := by simpa using hnone
      have hlies : g.Lies e.ptr q n := by
        rcases hN with ⟨hkd, -, -⟩ | ⟨-, -, hlies⟩
        · exact absurd (hkd.symm.trans hk) hP.apart.ne
        · exact hf.lies hlies
      obtain ⟨x, hx, i', hxk, -, hxi, -⟩ := hlies
      obtain rfl : x = (some q, e) := Forest.eq_of_mem_flat hs.held.nodup hx hP.new hxk
      rw [hneg] at hxi
      cases hxi
    obtain ⟨e', he', hptr, hcount⟩ := hlast hesome hc
    have hgone := Dcache.not_mem_ptrs_dput hmoved.sane.held he' hcount
    have hmem := Dcache.mem_ptrs_of_mem hy
    rw [hyk, hk] at hmem
    rw [hptr] at hgone
    exact hgone hmem

/-- What `rename` puts into another directory: the dentry of the old name, and
the one it replaces if that has other users. -/
def Relocated (env : Env) (h : Host) (oldPath : List Bytes) (oldName : Bytes)
    (newPath : List Bytes) (newName : Bytes) (k dir : Ptr) (n : CInt) : Prop :=
  ∃ p q, h.walk env h.root oldPath = .ok p ∧ h.walk env h.root newPath = .ok q ∧ p ≠ q ∧
    ((∃ d, h.dcache.dLookup p oldName = some d ∧ k = d.ptr ∧ dir = q ∧ h.Lies d.ptr p n) ∨
      ∃ e, h.dcache.dLookup q newName = some e ∧ e.dCount ≠ 1 ∧ k = e.ptr ∧ dir = p ∧
        h.Lies e.ptr q n)

/-- The two dentries of a rename once both names are looked up. -/
theorem exists_pair (hs : h.Sane) (hl : h.dcache.dLookup p d.dName = some d)
    (htrap : some d.ptr ≠ h.lockRename q p) (hqi : h.dInode? q = some di)
    (hl' : (h.dget d.ptr).Looked q name g k) (htrap' : some k ≠ h.lockRename q p)
    (hne : k ≠ d.ptr) :
    ∃ e, g.Pair p q d.get e ∧ e.ptr = k ∧ (e.dInode.isSome = true →
      ∃ e₀, h.dcache.dLookup q name = some e₀ ∧ e₀.ptr = k ∧ e.dCount = e₀.dCount + 1) := by
  have hn := hs.held.nodup
  have hd := dentryOf?_of_dLookup hn hl
  have hdm := Dcache.mem_nodes_of_node? hd
  have hop : d.get.dOp = true := by
    refine (hs.held.dies _ hdm).resolve_right fun hu => ?_
    have hhash := (Dcache.dLookup_some hl).2.1
    rw [hhash] at hu
    cases hu
  have hnew := not_below_of_trap hn hdm htrap
  have hs₁ := hs.dget d.ptr
  have hd₁ : (h.dget d.ptr).dcache.node? d.ptr = some (some p, d.get) :=
    Dcache.node?_update_self Dcache.keeps_get hd
  cases hl' with
  | @hit e hle hname =>
      obtain ⟨c, hc, hce⟩ := exists_dLookup_of_dget hle
      have hcp : c.ptr = e.ptr := by rw [hce]; split <;> rfl
      obtain rfl : e = c := by rwa [if_neg (hcp ▸ hne)] at hce
      have hem : (some q, e) ∈ h.dcache.nodes :=
        Dcache.mem_nodes_of_dLookup hn hc
      have hpos := hs.held.pos _ hem
      have hold := not_below_target_of_trap hn hem htrap'
      have hapart : h.dcache.Apart p q d.ptr e.ptr :=
        ⟨hne.symm, hold.1, hold.2, hnew.1, hnew.2⟩
      refine ⟨e.get, ⟨?_, ?_, hop, (Dcache.dLookup_some hc).2.1, fun _ => ?_, ?_⟩, rfl,
        fun _ => ⟨e, hname ▸ hc, rfl, rfl⟩⟩
      · exact Dcache.mem_nodes_of_node?
          ((Dcache.node?_update_ne Dcache.keeps_get hne.symm).trans hd₁)
      · exact Dcache.mem_nodes_of_node? (Dcache.node?_update_self Dcache.keeps_get
          (dentryOf?_of_dLookup hs₁.held.nodup hle))
      · simp only [Dentry.get] at hpos ⊢
        omega
      · exact (hapart.update Dcache.keeps_get).update Dcache.keeps_get
  | miss hle =>
      have hq : q ∈ (h.dget d.ptr).dcache.ptrs := by
        simpa using Dcache.mem_ptrs_of_node? (Ready.exists_dentry hqi).choose_spec.1
      have hfree : ∀ {j}, j ∈ h.dcache.ptrs → j ≠ h.nextPtr := fun hj heq =>
        hs.nextPtr_not_mem (heq ▸ hj)
      have hfree₁ : (negDentry h.nextPtr name).ptr ∉ (h.dget d.ptr).dcache.ptrs :=
        hs₁.nextPtr_not_mem
      have hplanted : ((h.dget d.ptr).dcache.plant q (negDentry h.nextPtr name)).subdirs
          h.nextPtr = .nil :=
        Dcache.subdirs_eq_nil (Dcache.nodup_plant hs₁.held.nodup hq hfree₁)
          (Dcache.kids_plant_self hs₁.held.nodup hq hfree₁)
      refine ⟨negDentry h.nextPtr name, ⟨?_, ?_, hop, rfl, fun h => (by cases h), ?_⟩, rfl,
        fun h => (by cases h)⟩
      · refine (Dcache.mem_nodes_plant hs₁.held.nodup hq).mpr (.inr ?_)
        exact Dcache.mem_nodes_of_node?
          ((Dcache.node?_update_ne Dcache.keeps_get (Ne.symm hnew.1)).trans hd₁)
      · exact (Dcache.mem_nodes_plant hs₁.held.nodup hq).mpr (.inl rfl)
      · refine ⟨hfree (Dcache.mem_ptrs_of_mem hdm), hfree (Dcache.parent_mem_ptrs hdm), ?_, hnew.1,
          ?_⟩
        · exact hplanted ▸ List.not_mem_nil
        · have hnew₁ : q ∉ Forest.keys Dentry.ptr ((h.dget d.ptr).dcache.subdirs d.ptr) := by
            rw [dcache_dget, Dcache.dget, Dcache.keys_subdirs_update Dcache.keeps_get]
            exact hnew.2
          change q ∉ Forest.keys Dentry.ptr
            (((h.dget d.ptr).dcache.plant q (negDentry h.nextPtr name)).subdirs d.ptr)
          rw [Dcache.keys_subdirs_plant hnew.1.symm (hfree (Dcache.mem_ptrs_of_mem hdm)) hnew₁]
          exact hnew₁

/-- A rename when it gets to `vfs_rename`: both walks and both lookups went
well, the old name has a file, and `lock_rename` objects to neither name. -/
structure Renaming (env : Env) (h : Host) (oldPath : List Bytes) (oldName : Bytes)
    (newPath : List Bytes) (newName : Bytes) (p q oi ni : Ptr) (d : Dentry) (i : Ptr) (g : Host)
    (k : Ptr) : Prop where
  old : h.walk env h.root oldPath = .ok p
  new : h.walk env h.root newPath = .ok q
  oldDir : h.dInode? p = some oi
  newDir : h.dInode? q = some ni
  isDir : (h.inodes ni).isDir = true
  found : ((h.dget p).dget q).dcache.dLookup p d.dName = some d
  name : d.dName = oldName
  inode : d.dInode = some i
  oldTrap : some d.ptr ≠ ((h.dget p).dget q).lockRename q p
  looked : (((h.dget p).dget q).dget d.ptr).Looked q newName g k
  newTrap : some k ≠ ((h.dget p).dget q).lockRename q p

section Rename

variable {oldPath newPath : List Bytes} {oldName newName : Bytes} {oi ni : Ptr}

/-- A rename fails and adds nothing, or is `vfs_rename` of two dentries, with
four references given back afterwards. -/
theorem Sane.sysRename_inv (hs : h.Sane)
    (hok : h.sysRename env oldPath oldName newPath newName = .ok (h', err)) :
    err ≠ none ∧ Grown Nowhere h h' ∨ ∃ p q oi ni d i g k r,
      h.Renaming env oldPath oldName newPath newName p q oi ni d i g k ∧
      g.vfsRename env oi d.ptr ni k = .ok (r, err) ∧
      h' = (((r.dput k).dput d.ptr).dput q).dput p := by
  obtain ⟨herr, rfl⟩ | ⟨p, r₁, hp, hr₁, rfl⟩ := withParent_ok hok
  · exact .inl ⟨herr, .refl hs⟩
  have hf₁ := Fades.dget hs p
  have hs₁ := hf₁.sane hs
  obtain ⟨herr, rfl⟩ | ⟨q, r₂, hq, hr₂, rfl⟩ := withParent_ok hr₁
  · exact .inl ⟨herr, (hs.grown_of_fades hf₁).dput p⟩
  have hf₂ := hf₁.trans (.dget hs₁ q)
  have hs₂ := hf₂.sane hs
  have hout : ∀ {g}, Grown Nowhere h g → Grown Nowhere h ((g.dput q).dput p) := fun hg =>
    (hg.dput q).dput p
  rw [walk_dget] at hq
  split at hr₂
  · cases hr₂
    exact .inl ⟨Option.some_ne_none _, hout (hs.grown_of_fades hf₂)⟩
  obtain ⟨oi, hoi, hodir⟩ := isDir_of_walk hp
  obtain ⟨ni, hni, hndir⟩ := isDir_of_walk hq
  have hoi₂ : ((h.dget p).dget q).dInode? p = some oi := by simpa using hoi
  obtain ⟨herr, hg⟩ | ⟨g, k, r₃, hl, hr₃, rfl⟩ := withDentry_ok hs₂ hr₂
  · exact .inl ⟨herr, hout ((hs.grown_of_fades hf₂).after hg)⟩
  have hg : Grown Nowhere h g := (hs.grown_of_fades hf₂).after (hl.grown hs₂ hoi₂ hodir)
  split at hr₃
  · cases hr₃
    exact .inl ⟨Option.some_ne_none _, hout (hg.dput k)⟩
  next hsome =>
  split at hr₃
  · cases hr₃
    exact .inl ⟨Option.some_ne_none _, hout (hg.dput k)⟩
  next htrap =>
  cases hl with
  | miss =>
      -- a negative dentry has no inode to rename
      obtain ⟨x, hx, -⟩ := Ready.exists_dentry hoi₂
      rw [dInode?_looked_new hs₂.held.nodup hx hs₂.nextPtr_not_mem] at hsome
      exact absurd rfl hsome
  | @hit d hl hname =>
  obtain ⟨herr, hg'⟩ | ⟨g', k', r₄, hl', hr, rfl⟩ := withDentry_ok hg.sane hr₃
  · exact .inl ⟨herr, hout ((hg.after hg').dput _)⟩
  have hni₃ : (((h.dget p).dget q).dget d.ptr).dInode? q = some ni := by simpa using hni
  have hg' := hl'.grown hg.sane hni₃ hndir
  split at hr
  · cases hr
    exact .inl ⟨Option.some_ne_none _, hout (((hg.after hg').dput k').dput _)⟩
  next htrap' =>
  -- the second lookup does not change what the directories are
  have hkeep : ∀ {j o}, h.dInode? j = some o → g'.dInode? j = some o := fun {j o} hj =>
    hl'.dInode? hg.sane.held.nodup hg.sane.nextPtr_not_mem hni₃ (by simpa using hj)
  rw [withInode_of_some (hkeep hoi), withInode_of_some (hkeep hni)] at hr
  have hd := dentryOf?_of_dLookup hs₂.held.nodup hl
  have hdi : ((h.dget p).dget q).dInode? d.ptr = d.dInode := by
    rw [Host.dInode?, hd]
    rfl
  obtain ⟨i, hi⟩ : ∃ i, d.dInode = some i := by
    refine Option.ne_none_iff_exists'.mp fun hnone => hsome ?_
    rw [dInode?_dget, hdi, hnone]
    rfl
  exact .inr ⟨p, q, oi, ni, d, i, g', k', r₄, ⟨hp, hq, hoi, hni, hndir, hl, hname, hi, htrap, hl',
    htrap'⟩, hr, rfl⟩

namespace Renaming

variable (hR : h.Renaming env oldPath oldName newPath newName p q oi ni d i g k) (hs : h.Sane)
include hR hs

/-- What was done up to `vfs_rename` adds nothing. -/
theorem grown : Grown Nowhere h g := by
  have hf₁ := Fades.dget hs p
  have hf₂ := hf₁.trans (.dget (hf₁.sane hs) q)
  have hf₃ := hf₂.trans (.dget (hf₂.sane hs) d.ptr)
  exact (hs.grown_of_fades hf₃).after
    (hR.looked.grown (hf₃.sane hs) (by simpa using hR.newDir) hR.isDir)

/-- A dentry renamed to itself. -/
theorem vfsRename_self (hk : k = d.ptr) (hok : g.vfsRename env oi d.ptr ni k = .ok (r, err)) :
    r = g := by
  have hs₂ := (hs.dget p).dget q
  have hs₃ := hs₂.dget d.ptr
  have hi : (((h.dget p).dget q).dget d.ptr).dInode? d.ptr = some i := by
    rw [dInode?_dget, Host.dInode?, dentryOf?_of_dLookup hs₂.held.nodup hR.found]
    exact hR.inode
  have hi' := hR.looked.dInode? hs₃.held.nodup hs₃.nextPtr_not_mem (by simpa using hR.newDir) hi
  unfold vfsRename at hok
  simp only [hk, inodeOf?, hi', Option.map_some, if_true] at hok
  cases hok
  rfl

/-- Two dentries that may change places. -/
theorem exists_pair (hne : k ≠ d.ptr) :
    ∃ e, g.Pair p q d.get e ∧ e.ptr = k ∧ (e.dInode.isSome = true →
      ∃ e₀, ((h.dget p).dget q).dcache.dLookup q newName = some e₀ ∧ e₀.ptr = k ∧
        e.dCount = e₀.dCount + 1) :=
  Host.exists_pair ((hs.dget p).dget q) hR.found hR.oldTrap (by simpa using hR.newDir) hR.looked
    hR.newTrap hne

end Renaming

theorem sysRename_grown (hs : h.Sane)
    (hok : h.sysRename env oldPath oldName newPath newName = .ok (h', err)) :
    Grown (h.Relocated env oldPath oldName newPath newName) h h' := by
  obtain ⟨-, hg⟩ | ⟨p, q, oi, ni, d, i, g', k', r, hR, hr, rfl⟩ := hs.sysRename_inv hok
  · exact hg.mono fun _ _ _ => False.elim
  have hg' := hR.grown hs
  refine ((Grown.dput ?_ d.ptr).dput q).dput p
  by_cases hkd : k' = d.ptr
  · rw [hR.vfsRename_self hs hkd hr]
    exact (hg'.dput _).mono fun _ _ _ => False.elim
  have hp := hR.old
  have hq := hR.new
  have hl := hR.found
  have hname := hR.name
  obtain ⟨e, hP, rfl, hcount⟩ := hR.exists_pair hs hkd
  obtain ⟨c, hc, hcd⟩ := exists_dLookup_of_dget hl
  obtain ⟨c₀, hc₀, hcc⟩ := exists_dLookup_of_dget hc
  have hptr : d.ptr = c₀.ptr := by rw [hcd, hcc]; split <;> split <;> rfl
  refine (hg'.after (vfsRename_grown hg'.sane hP hR.inode hr)).absorb fun k dir n hN => ?_
  have hlies : ∀ {k p}, g'.Lies k p n → h.Lies k p n := fun hl =>
    (hg'.places _ _ _ hl).resolve_right id
  by_cases hpq : p = q
  · -- within one directory nothing is anywhere else
    subst hpq
    rcases hN.1 with ⟨hk, hdir, hat⟩ | ⟨hk, hdir, hat⟩
    · exact .inl (hk ▸ hdir ▸ hlies hat)
    · exact .inl (hk ▸ hdir ▸ hlies hat)
  refine .inr ⟨p, q, hp, hq, hpq, ?_⟩
  rcases hN with ⟨⟨hk, hdir, hat⟩ | ⟨hk, hdir, hat⟩, htwo⟩
  · exact .inl ⟨c₀, hname ▸ hc₀, hk.trans hptr, hdir, hptr ▸ hlies hat⟩
  · -- the target has an inode, so it was there before the call
    obtain ⟨x, hx, j, hxk, -, hxj, -⟩ := id hat
    obtain rfl : x = (some q, e) := Forest.eq_of_mem_flat hg'.sane.held.nodup hx hP.new hxk
    obtain ⟨e₀, he₀, hptr₀, hc₀'⟩ := hcount (by rw [hxj]; rfl)
    obtain ⟨e₁, he₁, heq₁⟩ := exists_dLookup_of_dget he₀
    obtain ⟨e₂, he₂, heq₂⟩ := exists_dLookup_of_dget he₁
    have hp₁ : e₁.ptr = e₂.ptr := by rw [heq₂]; split <;> rfl
    have hp₀ : e₀.ptr = e₁.ptr := by rw [heq₁]; split <;> rfl
    have he₂q : q ≠ e₂.ptr := Dcache.parent_ne_ptr hs.held.nodup
      (Dcache.mem_nodes_of_dLookup hs.held.nodup he₂)
    have he₂p : p ≠ e₂.ptr := fun heq => hP.apart.old_ne (by rw [heq, ← hptr₀, hp₀, hp₁])
    rw [if_neg (Ne.symm he₂p)] at heq₂
    subst heq₂
    rw [if_neg (Ne.symm he₂q)] at heq₁
    subst heq₁
    refine .inr ⟨e₀, he₂, fun h1 => htwo hk (by rw [hc₀', h1]; rfl), hk.trans hptr₀.symm, hdir, ?_⟩
    rw [hptr₀]
    exact hlies hat

end Rename

end Host

end Wjfs
