import Wjfs.Host.Tidy
import Wjfs.Remote

/-!
# Wjfs.Host.Create

The calls that make a name, on a host in order: each either fails and leaves no
trace but a used-up address, or adds one pinned leaf.
-/

namespace Wjfs

namespace Host

variable {h : Host} {env : Env} {path : List Bytes} {name : Bytes}
  {dir i : Ptr} {mode : Mode} {call : Host → Ptr → Ptr → Outcome}

/-- The negative dentry that a lookup adds. -/
def negDentry (new : Ptr) (name : Bytes) : Dentry where
  ptr := new
  dName := name
  dInode := none
  dCount := 1
  dUnhashed := false
  dOp := true
  dMounted := false

/-- The dentry of a new file. -/
def liveDentry (new : Ptr) (name : Bytes) (i : Ptr) : Dentry :=
  { negDentry new name with dInode := some i }

/-- The host while a call looks at a name that is not there: `base` is the
tree with the references that the call holds. -/
def looked (h : Host) (base : Dcache) (dir : Ptr) (name : Bytes) : Host :=
  { h with dcache := base.plant dir (negDentry h.nextPtr name), nextPtr := h.nextPtr + 1 }

/-- A lookup of a name that is not in the cache, in a live directory. -/
theorem lookupHash_miss {n : Inode} (hi : h.inodeOf? dir = some n) (hd : n.isDir = true)
    (ha : n.dead = false) (hl : h.dcache.dLookup dir name = none)
    (hnew : h.nextPtr ∉ h.dcache.ptrs) (hlen : name.length ≤ 255) :
    h.lookupHash dir name = .ok (h.looked h.dcache dir name, .ok h.nextPtr) := by
  unfold lookupHash wjfsLookup looked
  have hne : ¬ 255 < name.length := by omega
  simp only [hi, hl, ha, hd, if_true, if_neg hne, Bool.false_eq_true, if_false]
  simp only [mapDcache, Dcache.dAlloc_eq_plant]
  rw [Dcache.update_plant (k := h.nextPtr) (d := Dcache.newDentry h.nextPtr name) rfl
    Dcache.keeps_added hnew]
  rfl

/-- A name too long for `wjfs_lookup`: the new dentry is given up at once. -/
theorem lookupHash_long {n : Inode} {x : Option Ptr × Dentry} (hi : h.inodeOf? dir = some n)
    (hd : n.isDir = true) (ha : n.dead = false) (hl : h.dcache.dLookup dir name = none)
    (hn : h.dcache.ptrs.Nodup) (hx : h.dentryOf? dir = some x) (hc : x.2.dCount ≠ 0)
    (hnew : h.nextPtr ∉ h.dcache.ptrs) (hlen : 255 < name.length) :
    h.lookupHash dir name = .ok ({ h with nextPtr := h.nextPtr + 1 }, .error .enametoolong) := by
  unfold lookupHash wjfsLookup
  simp only [hi, hl, ha, hd, if_true, if_pos hlen, Bool.false_eq_true, if_false]
  simp only [dput, mapDcache, Dcache.dAlloc_eq_plant]
  rw [Dcache.dput_plant_last (k := h.nextPtr) hn (Dcache.mem_ptrs_of_node? hx) hnew rfl hx hc rfl
    (.inr rfl)]

/-- A lookup in a live directory fails without a trace, finds the name, or
adds a negative dentry for it. -/
theorem withDentry_cases (env : Env) (name : Bytes) (call : Host → Ptr → Outcome)
    {x : Option Ptr × Dentry} {n : Inode}
    (hn : h.dcache.ptrs.Nodup) (hx : h.dentryOf? dir = some x) (hc : 1 ≤ x.2.dCount)
    (hi : h.inodeOf? dir = some n) (hd : n.isDir = true) (ha : n.dead = false)
    (hnew : h.nextPtr ∉ h.dcache.ptrs) :
    (∃ m e, h.nextPtr ≤ m ∧
      h.withDentry env dir name call = .ok ({ h with nextPtr := m }, some e)) ∨
    (∃ d, h.dcache.dLookup dir name = some d ∧
      h.withDentry env dir name call =
        (call (h.dget d.ptr) d.ptr).map fun r => (r.1.dput d.ptr, r.2)) ∨
    (h.dcache.dLookup dir name = none ∧ name.length ≤ 255 ∧
      h.withDentry env dir name call =
        (call (h.looked h.dcache dir name) h.nextPtr).map fun r => (r.1.dput h.nextPtr, r.2)) := by
  by_cases hp : env.inodePermission n .exec = true
  swap
  · exact .inl ⟨h.nextPtr, .eacces, Nat.le_refl _, withDentry_denied hi (by simpa using hp)⟩
  cases hl : h.dcache.dLookup dir name with
  | some d => exact .inr (.inl ⟨d, rfl, withDentry_of_hit hi hp hl⟩)
  | none =>
      by_cases hlen : name.length ≤ 255
      · refine .inr (.inr ⟨rfl, hlen, ?_⟩)
        unfold withDentry lookupNd
        simp only [hi, if_pos hp, bind, Except.bind]
        rw [lookupHash_miss hi hd ha hl hnew hlen]
        simp only
        cases call (h.looked h.dcache dir name) h.nextPtr <;> rfl
      · refine .inl ⟨h.nextPtr + 1, .enametoolong, Nat.le_succ _, ?_⟩
        unfold withDentry lookupNd
        simp only [hi, if_pos hp, bind, Except.bind]
        rw [lookupHash_long hi hd ha hl hn hx (by omega) hnew (by omega)]

section Looked

variable {base : Dcache} {x : Option Ptr × Dentry} (hn : base.ptrs.Nodup)
  (hx : base.node? dir = some x) (hnew : h.nextPtr ∉ base.ptrs)
include hn hx hnew

theorem dentryOf?_looked_new : (h.looked base dir name).dentryOf? h.nextPtr =
    some (some dir, negDentry h.nextPtr name) :=
  Dcache.node?_plant_self hn (Dcache.mem_ptrs_of_node? hx) hnew rfl

theorem dInode?_looked_new : (h.looked base dir name).dInode? h.nextPtr = none := by
  rw [dInode?, dentryOf?_looked_new hn hx hnew]
  rfl

theorem dentryOf?_looked_dir : (h.looked base dir name).dentryOf? dir = some (x.1, x.2.get) :=
  Dcache.node?_plant_parent hn (Dcache.mem_ptrs_of_node? hx) hnew hx

theorem dInode?_looked_dir : (h.looked base dir name).dInode? dir = x.2.dInode := by
  rw [dInode?, dentryOf?_looked_dir hn hx hnew]
  rfl

theorem dInode?_looked_ne {k : Ptr} (hk : k ≠ h.nextPtr) :
    (h.looked base dir name).dInode? k = (base.node? k).bind fun y => y.2.dInode := by
  have hnode : (h.looked base dir name).dentryOf? k = (base.dget dir).node? k :=
    Dcache.node?_plant_ne hn (Dcache.mem_ptrs_of_node? hx) hnew hk
  rw [dInode?, hnode, Dcache.dget, Dcache.node?_update Dcache.keeps_get, Option.bind_map]
  refine Option.bind_congr fun y _ => ?_
  simp only [Function.comp]
  split <;> rfl

end Looked

/-- What a call finds when the last component is there. -/
structure Victim (env : Env) (h : Host) (path : List Bytes) (dir di : Ptr) (d : Dentry) :
    Prop where
  walk : h.walk env h.root path = .ok dir
  inode : h.dInode? dir = some di
  lookup : h.dcache.dLookup dir d.dName = some d

theorem Victim.mem {d : Dentry} (hv : h.Victim env path dir i d) (hn : h.dcache.ptrs.Nodup) :
    (some dir, d) ∈ h.dcache.nodes :=
  Dcache.mem_nodes_of_dLookup hn hv.lookup

/-- What a call finds when the last component is not there. -/
structure NewName (env : Env) (h : Host) (path : List Bytes) (name : Bytes) (dir i : Ptr) :
    Prop where
  walk : h.walk env h.root path = .ok dir
  inode : h.dInode? dir = some i
  isDir : (h.inodes i).isDir = true
  miss : h.dcache.dLookup dir name = none
  norm : lastNorm name = true
  length : name.length ≤ 255

/-- The dentry of the directory in which a name is made. -/
theorem NewName.dentry (hq : h.NewName env path name dir i) :
    ∃ x, h.dentryOf? dir = some x ∧ x.2.dInode = some i := Ready.exists_dentry hq.inode

theorem NewName.mem (hq : h.NewName env path name dir i) : dir ∈ h.dcache.ptrs := by
  obtain ⟨x, hx, -⟩ := hq.dentry
  exact Dcache.mem_ptrs_of_node? hx

/-- Holding the directory does not change what is found in it. -/
theorem dLookup_dget (hn : h.dcache.ptrs.Nodup) :
    (h.dget dir).dcache.dLookup dir name = h.dcache.dLookup dir name := by
  cases hl : h.dcache.dLookup dir name with
  | none =>
      rw [dcache_dget, Dcache.dget, Dcache.dLookup_update Dcache.keeps_get fun _ => ⟨rfl, rfl⟩, hl]
      rfl
  | some d =>
      obtain ⟨-, -, rfl⟩ := Dcache.dLookup_some hl
      exact dLookup_dget_parent hn hl

/-- A call leaves no trace but used-up addresses. -/
def NoTrace (h h' : Host) : Prop := ∃ n, h.nextPtr ≤ n ∧ h' = { h with nextPtr := n }

/-- A call on a name fails without a trace, is run on the dentry of that
name, or is run on a negative dentry for it. -/
theorem withName_cases (ht : h.Ready) (env : Env) (path : List Bytes) (name : Bytes)
    (notNorm : Errno) (call : Host → Ptr → Ptr → Outcome) :
    (∃ h' e, h.NoTrace h' ∧ h.withName env path name notNorm call = .ok (h', some e)) ∨
    (∃ dir i d, d.dName = name ∧ h.Victim env path dir i d ∧
      h.withName env path name notNorm call =
        (call ((h.dget dir).dget d.ptr) i d.ptr).map
          fun r => ((r.1.dput d.ptr).dput dir, r.2)) ∨
    (∃ dir i, h.NewName env path name dir i ∧
      h.withName env path name notNorm call =
        (call (h.looked (h.dcache.dget dir) dir name) i h.nextPtr).map
          fun r => ((r.1.dput h.nextPtr).dput dir, r.2)) := by
  cases hw : h.walk env h.root path with
  | error e =>
      refine .inl ⟨h, e, ⟨h.nextPtr, Nat.le_refl _, rfl⟩, ?_⟩
      unfold withName withParent
      rw [hw]
  | ok dir =>
      obtain ⟨i, hi, hdir⟩ := isDir_of_walk hw
      obtain ⟨x, hx, hxi⟩ := Ready.exists_dentry hi
      have hxm := Dcache.mem_nodes_of_node? hx
      have hpos := ht.pos x hxm
      have hput : ∀ n, ({ h.dget dir with nextPtr := n } : Host).dput dir =
          { h with nextPtr := n } := fun n =>
        congrArg (fun g : Host => { g with nextPtr := n }) (dput_dget hx (by omega))
      have hx1 : (h.dget dir).dentryOf? dir = some (x.1, x.2.get) :=
        Dcache.node?_update_self Dcache.keeps_get hx
      unfold withName
      rw [withParent_of_walk hw]
      by_cases hnorm : lastNorm name = true
      swap
      · refine .inl ⟨h, notNorm, ⟨h.nextPtr, Nat.le_refl _, rfl⟩, ?_⟩
        rw [if_neg hnorm]
        exact congrArg (fun g => Except.ok (g, some notNorm)) (hput h.nextPtr)
      rw [if_pos hnorm]
      rcases withDentry_cases (h := h.dget dir) env name
          (fun g dentry => g.withInode dir fun i => call g i dentry)
          (by simpa using ht.nodup) hx1 (by simp only [Dentry.get]; omega)
          (by simp [inodeOf?, hi]) hdir (ht.alive x hxm i hxi).1
          (by simpa using ht.nextPtr_not_mem) with
        ⟨n, e, hn, heq⟩ | ⟨d, hl, heq⟩ | ⟨hl, hlen, heq⟩
      · refine .inl ⟨_, e, ⟨n, hn, rfl⟩, ?_⟩
        rw [heq]
        exact congrArg (fun g => Except.ok (g, some e)) (hput n)
      · rw [dLookup_dget ht.nodup] at hl
        have hname := (Dcache.dLookup_some hl).2.2
        refine .inr (.inl ⟨dir, i, d, hname, ⟨hw, hi, by rw [hname]; exact hl⟩, ?_⟩)
        rw [heq, withInode_of_some (by simpa using hi)]
        cases call ((h.dget dir).dget d.ptr) i d.ptr <;> rfl
      · rw [dLookup_dget ht.nodup] at hl
        refine .inr (.inr ⟨dir, i, ⟨hw, hi, hdir, hl, hnorm, hlen⟩, ?_⟩)
        have hdi : (h.looked (h.dcache.dget dir) dir name).dInode? dir = some i :=
          (dInode?_looked_dir (by simpa using ht.nodup) hx1
            (by simpa using ht.nextPtr_not_mem)).trans hxi
        have hlk : (h.dget dir).looked (h.dget dir).dcache dir name =
            h.looked (h.dcache.dget dir) dir name := rfl
        rw [heq, hlk, nextPtr_dget, withInode_of_some hdi]
        cases call (h.looked (h.dcache.dget dir) dir name) i h.nextPtr <;> rfl

/-- Giving the negative dentry up leaves no trace but a used-up address. -/
theorem dput_dput_looked (ht : h.Ready) {x : Option Ptr × Dentry}
    (hx : h.dentryOf? dir = some x) :
    ((h.looked (h.dcache.dget dir) dir name).dput h.nextPtr).dput dir =
      { h with nextPtr := h.nextPtr + 1 } := by
  have hpos := ht.pos x (Dcache.mem_nodes_of_node? hx)
  have hx1 : (h.dcache.dget dir).node? dir = some (x.1, x.2.get) :=
    Dcache.node?_update_self Dcache.keeps_get hx
  unfold looked dput mapDcache
  simp only
  rw [Dcache.dput_plant_last (k := h.nextPtr) (by simpa using ht.nodup)
    (Dcache.mem_ptrs_of_node? hx1) (by simpa [negDentry] using ht.nextPtr_not_mem) rfl hx1
    (by simp only [Dentry.get]; omega) rfl (.inl rfl), Dcache.dput_dget hx (by omega)]

/-- A call that makes a name either fails without a trace, or is run on the
host with a negative dentry for the name. -/
theorem withNewName_cases (ht : h.Ready) (env : Env) (path : List Bytes) (name : Bytes)
    (call : Host → Ptr → Ptr → Outcome) :
    (∃ h' e, h.NoTrace h' ∧ h.withNewName env path name call = .ok (h', some e)) ∨
    (∃ dir i, h.NewName env path name dir i ∧
      h.withNewName env path name call =
        (call (h.looked (h.dcache.dget dir) dir name) i h.nextPtr).map
          fun r => ((r.1.dput h.nextPtr).dput dir, r.2)) := by
  unfold withNewName
  rcases withName_cases ht env path name .eexist
      (fun g dir dentry =>
        if (g.dInode? dentry).isSome then .ok (g, some .eexist) else call g dir dentry) with
    hfail | ⟨dir, i, d, rfl, hv, heq⟩ | ⟨dir, i, hq, heq⟩
  · exact .inl hfail
  · -- the dentry that is there is positive
    have hd := dentryOf?_of_dLookup ht.nodup hv.lookup
    obtain ⟨x, hx, -⟩ := Ready.exists_dentry hv.inode
    have hsome : (((h.dget dir).dget d.ptr).dInode? d.ptr).isSome = true := by
      rw [dInode?_dget, dInode?_dget, dInode?, hd]
      exact (ht.live dir d (Dcache.mem_nodes_of_node? hd)).2.2.2
    refine .inl ⟨h, .eexist, ⟨h.nextPtr, Nat.le_refl _, rfl⟩, ?_⟩
    rw [heq, if_pos hsome]
    simp only [Except.map]
    rw [dput_dput_of_dLookup ht.nodup hv.lookup ht.pos (by rw [hx]; simp)]
  · refine .inr ⟨dir, i, hq, ?_⟩
    obtain ⟨x, hx, -⟩ := hq.dentry
    have hx1 : (h.dcache.dget dir).node? dir = some (x.1, x.2.get) :=
      Dcache.node?_update_self Dcache.keeps_get hx
    have hnone : ¬ ((h.looked (h.dcache.dget dir) dir name).dInode? h.nextPtr).isSome := by
      rw [dInode?_looked_new (by simpa using ht.nodup) hx1
        (by simpa using ht.nextPtr_not_mem)]
      simp
    rw [heq, if_neg hnone]

/-! ## a new inode for the dentry -/

/-- The inode that `wjfs_get_inode` makes, with the set-group-id bit that a
directory inherits. -/
def newInode (h : Host) (di : Ptr) (mode : Mode) : Inode :=
  let n := Inode.fresh (h.lastIno + 1) mode
  if (h.inodes di).iMode.perm &&& Mode.sgid ≠ 0 ∧ mode.isDir then
    { n with iMode := { n.iMode with perm := n.iMode.perm ||| Mode.sgid } }
  else n

section NewInode

variable (h : Host) (di : Ptr) (mode : Mode)

@[simp] theorem iIno_newInode : (h.newInode di mode).iIno = h.lastIno + 1 := by
  unfold newInode; split <;> rfl

@[simp] theorem isDir_newInode : (h.newInode di mode).isDir = mode.isDir := by
  unfold newInode; split <;> rfl

@[simp] theorem dead_newInode : (h.newInode di mode).dead = false := by
  unfold newInode; split <;> rfl

@[simp] theorem iNlink_newInode : (h.newInode di mode).iNlink = if mode.isDir then 2 else 1 := by
  unfold newInode; split <;> rfl

theorem isZero_newInode (hz : mode.fmt ≠ .zero) : (h.newInode di mode).iMode.isZero = false := by
  unfold newInode
  split <;> simp [Mode.isZero, Inode.fresh, hz]

end NewInode

/-- The host after a file was made: `base` is the tree it was made in, `refs`
the references the call still holds to the new dentry. -/
def madeIn (h : Host) (base : Dcache) (dir di : Ptr) (name : Bytes) (mode : Mode) (refs : Int) :
    Host :=
  { h with
    dcache := base.plant dir ((liveDentry h.nextPtr name (h.nextPtr + 1)).withCount refs)
    inodes := fun j => if j = h.nextPtr + 1 then h.newInode di mode else h.inodes j
    nextPtr := h.nextPtr + 2
    lastIno := h.lastIno + 1 }

/-- The host with a new file in it. -/
def made (h : Host) (dir di : Ptr) (name : Bytes) (mode : Mode) : Host :=
  h.madeIn h.dcache dir di name mode 1

/-- The frame that tells the peer of it. -/
def createFrame (h : Host) (dir di : Ptr) (name : Bytes) (mode : Mode) : Bytes :=
  wjfsClientCreate (h.lastIno + 1) name (h.inodes di).iIno ((h.dName? dir).getD []) mode.isDir

section Mknod

variable {base : Dcache} {x : Option Ptr × Dentry} {di : Ptr} (hn : base.ptrs.Nodup)
  (hx : base.node? dir = some x) (hnew : h.nextPtr ∉ base.ptrs) (hxi : x.2.dInode = some di)
  (hlt : di < h.nextPtr) (henv : env.newInode = true)

include henv hlt in
/-- The inode that both `mknod`s fill in. -/
theorem wjfsGetInode_looked (base : Dcache) (dir : Ptr) (name : Bytes) (mode : Mode) :
    ∃ g, (h.looked base dir name).wjfsGetInode env mode = (g, some (h.nextPtr + 1)) ∧
      g.inheritSgid di (h.nextPtr + 1) mode =
        { h.looked base dir name with
          inodes := fun j => if j = h.nextPtr + 1 then h.newInode di mode else h.inodes j
          nextPtr := h.nextPtr + 2
          lastIno := h.lastIno + 1 } := by
  refine ⟨_, by unfold wjfsGetInode; rw [if_pos henv]; rfl, ?_⟩
  have hne : di ≠ h.nextPtr + 1 := Nat.ne_of_lt (Nat.lt_succ_of_lt hlt)
  unfold inheritSgid setInode looked newInode
  simp only [if_neg hne]
  split
  · simp only [Host.mk.injEq, true_and, and_true]
    funext j
    by_cases hj : j = h.nextPtr + 1 <;> simp [hj]
  · rfl

include hn hx hnew in
/-- Both `mknod`s bind the inode to the dentry and take a reference to it. -/
theorem dInstantiate_looked (name : Bytes) {g : Host} {i : Ptr}
    (hg : g.dcache = base.plant dir (negDentry h.nextPtr name)) :
    (g.dInstantiate h.nextPtr i).map (·.dget h.nextPtr) =
      .ok { g with
        dcache := base.plant dir ((liveDentry h.nextPtr name i).withCount 2) } := by
  have hp := Dcache.mem_ptrs_of_node? hx
  have hself : g.dcache.node? h.nextPtr = some (some dir, negDentry h.nextPtr name) := by
    rw [hg]
    exact Dcache.node?_plant_self hn hp hnew rfl
  have hnone : ¬ (g.dInode? h.nextPtr).isSome = true := by
    simp [dInode?, dentryOf?, hself, negDentry]
  unfold dInstantiate
  rw [if_neg hnone]
  simp only [Except.map, dget, mapDcache, hg, Dcache.dget]
  rw [Dcache.update_plant (k := h.nextPtr) rfl (Dcache.keeps_instantiate i) hnew,
    Dcache.update_plant (k := h.nextPtr) rfl Dcache.keeps_get hnew]
  rfl

include hn hx hnew hlt henv

/-- `wjfs_mknod_rdma` on a negative dentry. -/
theorem wjfsMknodRdma_looked (name : Bytes) (mode : Mode) :
    (h.looked base dir name).wjfsMknodRdma env di h.nextPtr mode =
      .ok (h.madeIn base dir di name mode 2, none) := by
  obtain ⟨g, hg, hinh⟩ := wjfsGetInode_looked hlt henv base dir name mode
  have hd := dInstantiate_looked hn hx hnew name (i := h.nextPtr + 1)
    (g := g.inheritSgid di (h.nextPtr + 1) mode) (by rw [hinh]; rfl)
  unfold wjfsMknodRdma
  rw [hg]
  simp only [bind, Except.bind]
  cases hb : (g.inheritSgid di (h.nextPtr + 1) mode).dInstantiate h.nextPtr (h.nextPtr + 1) with
  | error e => rw [hb] at hd; cases hd
  | ok g' =>
      rw [hb, hinh] at hd
      simp only [Except.map, Except.ok.injEq] at hd
      simp only [hd]
      rfl

include hxi in
/-- `wjfs_mknod` on a negative dentry. -/
theorem wjfsMknod_looked (name : Bytes) (mode : Mode) (hbase : h.dName? dir = some x.2.dName) :
    (h.looked base dir name).wjfsMknod env di h.nextPtr mode =
      .ok ((h.madeIn base dir di name mode 2).send env (h.createFrame dir di name mode), none) := by
  obtain ⟨g, hg, hinh⟩ := wjfsGetInode_looked hlt henv base dir name mode
  have hd := dInstantiate_looked hn hx hnew name (i := h.nextPtr + 1)
    (g := g.inheritSgid di (h.nextPtr + 1) mode) (by rw [hinh]; rfl)
  have hself : (h.madeIn base dir di name mode 2).dentryOf? h.nextPtr =
      some (some dir, (liveDentry h.nextPtr name (h.nextPtr + 1)).withCount 2) :=
    Dcache.node?_plant_self hn (Dcache.mem_ptrs_of_node? hx) hnew rfl
  have hpar : (h.madeIn base dir di name mode 2).dentryOf? dir = some (x.1, x.2.get) :=
    Dcache.node?_plant_parent hn (Dcache.mem_ptrs_of_node? hx) hnew hx
  have hne : di ≠ h.nextPtr + 1 := Nat.ne_of_lt (Nat.lt_succ_of_lt hlt)
  have hfields : (h.madeIn base dir di name mode 2).frameFields h.nextPtr =
      .ok (h.lastIno + 1, name, (h.inodes di).iIno, x.2.dName) := by
    unfold frameFields
    have hp : (h.madeIn base dir di name mode 2).dParent h.nextPtr = dir := by
      simp [dParent, hself]
    simp only [hp, inodeOf?, dInode?, dName?, hself, hpar, Option.bind_some, Option.map_some,
      Dentry.withCount, liveDentry, Dentry.get, hxi, negDentry]
    simp [madeIn, hne]
  unfold wjfsMknod
  rw [hg]
  simp only [bind, Except.bind]
  cases hb : (g.inheritSgid di (h.nextPtr + 1) mode).dInstantiate h.nextPtr (h.nextPtr + 1) with
  | error e => rw [hb] at hd; cases hd
  | ok g' =>
      rw [hb, hinh] at hd
      simp only [Except.map, Except.ok.injEq] at hd
      have hmade : g'.dget h.nextPtr = h.madeIn base dir di name mode 2 := hd
      simp only [hmade, hfields, createFrame, hbase, Option.getD_some]

end Mknod

/-- Dropping the references of the call leaves the new dentry with its pin. -/
theorem dput_dput_madeIn (ht : h.Ready) {x : Option Ptr × Dentry} {di : Ptr}
    (hx : h.dentryOf? dir = some x) :
    ((h.madeIn (h.dcache.dget dir) dir di name mode 2).dput h.nextPtr).dput dir =
      h.made dir di name mode := by
  have hpos := ht.pos x (Dcache.mem_nodes_of_node? hx)
  have hp := Dcache.mem_ptrs_of_node? hx
  unfold madeIn made madeIn dput mapDcache
  simp only
  rw [Dcache.dput_plant (k := h.nextPtr) (by simpa using ht.nodup) (by simpa using hp)
    (by simpa [liveDentry, negDentry] using ht.nextPtr_not_mem) rfl
    (by simp [Dentry.withCount]),
    Dcache.dput_plant_dget ht.nodup hp
    (by simpa [liveDentry, negDentry] using ht.nextPtr_not_mem) hx hpos]
  rfl

/-! ## the calls -/

/-- When `wjfs_mknod` returns, it returns 0. -/
theorem error_of_wjfsMknod {di new : Ptr} {r : Host × Option Errno}
    (hr : h.wjfsMknod env di new mode = .ok r) : r.2 = none := by
  unfold wjfsMknod at hr
  split at hr
  · cases hr
  · obtain ⟨g, -, hr⟩ := bind_eq_ok hr
    obtain ⟨v, -, hr⟩ := bind_eq_ok hr
    cases hr
    rfl

/-- The shape that `vfs_create`, `vfs_mknod` and `vfs_mkdir` share; `post` is what
is done after `wjfs_mknod`. -/
def vfsMake (env : Env) (mode : Mode) (post : Ptr → Host → Host) (g : Host) (dir dentry : Ptr) :
    Outcome :=
  match g.mayCreate env dir dentry with
  | some e => .ok (g, some e)
  | none => (g.wjfsMknod env dir dentry mode).map fun r => (post dir r.1, r.2)

theorem sysCreate_eq (perm : BitVec 12) : h.sysCreate env path name perm =
    h.withNewName env path name (vfsMake env ⟨.reg, perm⟩ fun _ g => g) := by
  refine congrArg (h.withNewName env path name) ?_
  funext g di k
  unfold vfsMake vfsCreate wjfsCreate
  cases g.mayCreate env di k with
  | some e => rfl
  | none => cases g.wjfsMknod env di k ⟨.reg, perm⟩ <;> rfl

theorem sysMknod_eq (special : Special) (perm : BitVec 12) :
    h.sysMknod env path name special perm =
      h.withNewName env path name (vfsMake env ⟨special.fmt, perm⟩ fun _ g => g) := by
  refine congrArg (h.withNewName env path name) ?_
  funext g di k
  unfold vfsMake vfsMknod
  cases g.mayCreate env di k with
  | some e => rfl
  | none => cases g.wjfsMknod env di k ⟨special.fmt, perm⟩ <;> rfl

theorem sysMkdir_eq (perm : BitVec 12) : h.sysMkdir env path name perm =
    h.withNewName env path name
      (vfsMake env ⟨.dir, perm &&& 0o1777⟩ fun di g => g.setInode di Inode.incNlink) := by
  refine congrArg (h.withNewName env path name) ?_
  funext g di k
  unfold vfsMake vfsMkdir wjfsMkdir
  cases g.mayCreate env di k with
  | some e => rfl
  | none =>
      cases hm : g.wjfsMknod env di k ⟨.dir, perm &&& 0o1777⟩ with
      | error f => rfl
      | ok r => simp [bind, Except.bind, Except.map, error_of_wjfsMknod hm]

section Calls

variable (ht : h.Ready) {h' : Host} {e : Option Errno}
include ht

/-- What a call that makes a file does: it fails and leaves no trace, it makes
the file, or it follows the null pointer of an inode that there was no memory
for. -/
theorem make_eq (post : Ptr → Host → Host)
    (hpost : ∀ di g k, (post di g).dput k = post di (g.dput k)) :
    (∃ g e', h.NoTrace g ∧
      h.withNewName env path name (vfsMake env mode post) = .ok (g, some e')) ∨
    ∃ dir di, h.NewName env path name dir di ∧
      (env.newInode = true ∧ h.withNewName env path name (vfsMake env mode post) = .ok
          (post di ((h.made dir di name mode).send env (h.createFrame dir di name mode)), none) ∨
        env.newInode = false ∧
          h.withNewName env path name (vfsMake env mode post) = .error .nullDeref) := by
  rcases withNewName_cases ht env path name (vfsMake env mode post) with
    hfail | ⟨dir, di, hq, heq⟩
  · exact .inl hfail
  · obtain ⟨x, hx, hxi⟩ := hq.dentry
    have hx1 : (h.dcache.dget dir).node? dir = some (x.1, x.2.get) :=
      Dcache.node?_update_self Dcache.keeps_get hx
    rw [vfsMake] at heq
    cases hm : (h.looked (h.dcache.dget dir) dir name).mayCreate env di h.nextPtr with
    | some e' =>
        rw [hm] at heq
        exact .inl ⟨_, e', ⟨h.nextPtr + 1, Nat.le_succ _, dput_dput_looked ht hx⟩, heq⟩
    | none =>
        rw [hm] at heq
        refine .inr ⟨dir, di, hq, ?_⟩
        rw [heq]
        cases henv : env.newInode with
        | false =>
            exact .inr ⟨rfl, by simp only [wjfsMknod, wjfsGetInode, henv, Except.map]; rfl⟩
        | true =>
          have hmk := wjfsMknod_looked (by simpa using ht.nodup) hx1
            (by simpa using ht.nextPtr_not_mem) hxi
            (ht.inode_lt x (Dcache.mem_nodes_of_node? hx) di hxi) henv name mode
            (by simp [dName?, hx, Dentry.get])
          refine .inl ⟨rfl, ?_⟩
          rw [hmk]
          simp only [Except.map]
          rw [hpost, hpost, dput_send, dput_send, dput_dput_madeIn ht hx]

theorem make_cases (post : Ptr → Host → Host)
    (hpost : ∀ di g k, (post di g).dput k = post di (g.dput k))
    (hok : h.withNewName env path name (vfsMake env mode post) = .ok (h', e)) :
    h.NoTrace h' ∧ e ≠ none ∨
      e = none ∧ ∃ dir di, h.NewName env path name dir di ∧ env.newInode = true ∧
        h' = post di ((h.made dir di name mode).send env (h.createFrame dir di name mode)) := by
  obtain ⟨g, e', hno, heq⟩ | ⟨dir, di, hq, heq⟩ := make_eq ht post hpost
  · rw [heq] at hok
    cases hok
    exact .inl ⟨hno, by simp⟩
  · rcases heq with ⟨henv, heq⟩ | ⟨-, heq⟩
    · rw [heq] at hok
      cases hok
      exact .inr ⟨rfl, dir, di, hq, henv, rfl⟩
    · rw [heq] at hok
      cases hok

/-- With memory for the inode the call returns. -/
theorem make_ok (post : Ptr → Host → Host)
    (hpost : ∀ di g k, (post di g).dput k = post di (g.dput k)) (henv : env.newInode = true) :
    ∃ r, h.withNewName env path name (vfsMake env mode post) = .ok r := by
  obtain ⟨g, e', -, heq⟩ | ⟨dir, di, -, ⟨-, heq⟩ | ⟨hno, -⟩⟩ := make_eq ht post hpost
  · exact ⟨_, heq⟩
  · exact ⟨_, heq⟩
  · rw [henv] at hno
    cases hno

theorem sysCreate_cases {perm : BitVec 12}
    (hok : h.sysCreate env path name perm = .ok (h', e)) :
    h.NoTrace h' ∧ e ≠ none ∨
      e = none ∧ ∃ dir di, h.NewName env path name dir di ∧ env.newInode = true ∧
        h' = (h.made dir di name ⟨.reg, perm⟩).send env
          (h.createFrame dir di name ⟨.reg, perm⟩) := by
  rw [sysCreate_eq] at hok
  exact make_cases ht (fun _ g => g) (fun _ _ _ => rfl) hok

theorem sysMknod_cases {special : Special} {perm : BitVec 12}
    (hok : h.sysMknod env path name special perm = .ok (h', e)) :
    h.NoTrace h' ∧ e ≠ none ∨
      e = none ∧ ∃ dir di, h.NewName env path name dir di ∧ env.newInode = true ∧
        h' = (h.made dir di name ⟨special.fmt, perm⟩).send env
          (h.createFrame dir di name ⟨special.fmt, perm⟩) := by
  rw [sysMknod_eq] at hok
  exact make_cases ht (fun _ g => g) (fun _ _ _ => rfl) hok

theorem sysMkdir_cases {perm : BitVec 12}
    (hok : h.sysMkdir env path name perm = .ok (h', e)) :
    h.NoTrace h' ∧ e ≠ none ∨
      e = none ∧ ∃ dir di, h.NewName env path name dir di ∧ env.newInode = true ∧
        h' = ((h.made dir di name ⟨.dir, perm &&& 0o1777⟩).send env
          (h.createFrame dir di name ⟨.dir, perm &&& 0o1777⟩)).setInode di Inode.incNlink := by
  rw [sysMkdir_eq] at hok
  exact make_cases ht (fun di g => g.setInode di Inode.incNlink) (fun _ _ _ => rfl) hok

/-- `symlink` reports success and makes nothing. -/
theorem sysSymlink_cases (hok : h.sysSymlink env path name = .ok (h', e)) : h.NoTrace h' := by
  rcases withNewName_cases ht env path name
    (fun g dir dentry => g.vfsSymlink env dir dentry) with
    ⟨g, e', hno, heq⟩ | ⟨dir, di, hq, heq⟩
  · rw [sysSymlink, heq] at hok
    cases hok
    exact hno
  · obtain ⟨x, hx, -⟩ := hq.dentry
    have hsame : ∃ e', (h.looked (h.dcache.dget dir) dir name).vfsSymlink env di h.nextPtr =
        .ok (h.looked (h.dcache.dget dir) dir name, e') := by
      unfold vfsSymlink wjfsSymlink
      split
      · exact ⟨_, rfl⟩
      · exact ⟨_, rfl⟩
    obtain ⟨e', hs⟩ := hsame
    rw [sysSymlink, heq, hs] at hok
    cases hok
    exact ⟨h.nextPtr + 1, Nat.le_succ _, dput_dput_looked ht hx⟩

end Calls

end Host

end Wjfs
