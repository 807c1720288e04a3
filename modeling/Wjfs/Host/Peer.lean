import Wjfs.Frame.Roundtrip
import Wjfs.Host.Keep
import Wjfs.Search

/-!
# Wjfs.Host.Peer

What the frames of a peer do to a host in order.

A create frame that `rdma_create` survives adds one pinned leaf and fills one
table entry.  A remove frame frees one entry and takes the reference back that
pinned the link it found.
-/

namespace Wjfs

namespace Host

variable {pin : Ptr → Nat} {h h' : Host} {env : Env} {dir di : Ptr} {c : Control} {ip : Bytes}

/-! ## create frames -/

/-- `rdma_create` after the parsing, up to the table: the new dentry and its
parent. -/
def makeLink (env : Env) (h : Host) (c : Control) : Except Fault (Host × Ptr × Ptr) :=
  match h.resolveParent c.nameParent with
  | none => .error .nullDeref
  | some parent =>
      if (h.dInode? parent).isNone then .error .nullDeref
      else do
        match ← h.wjfsCreateFile env c.name (linkMode c.mode) parent with
        | (_, none) => .error .nullDeref
        | (h, some new) => .ok (h.mapDcache (·.update new Dentry.dec), new, parent)

/-- Then it is recorded. -/
theorem rdmaCreateParsed_def (env : Env) (h : Host) (c : Control) (ip : Bytes) :
    h.rdmaCreateParsed env c ip =
      h.makeLink env c >>= fun x => x.1.recordLink x.2.1 x.2.2 c ip := by
  unfold rdmaCreateParsed makeLink
  cases h.resolveParent c.nameParent with
  | none => rfl
  | some parent =>
      simp only
      split
      · rfl
      · cases h.wjfsCreateFile env c.name (linkMode c.mode) parent with
        | error f => rfl
        | ok x =>
            obtain ⟨g, _ | new⟩ := x
            · rfl
            · rfl

/-- What `rdma_create` needs to find. -/
structure Linkable (env : Env) (h : Host) (c : Control) (dir di : Ptr) : Prop where
  parent : h.resolveParent c.nameParent = some dir
  inode : h.dInode? dir = some di
  isDir : (h.inodes di).isDir = true
  search : env.inodePermission (h.inodes di) .exec = true
  miss : h.dcache.dLookup dir c.name = none
  name : c.name ≠ [] ∧ 47 ∉ c.name ∧ 0 ∉ c.name
  length : c.name.length ≤ 255
  memory : env.newInode = true

/-- The entry that `rdma_create` fills in for a new link. -/
def linkEntry (h : Host) (di : Ptr) (c : Control) (ip : Bytes) (e : Entry) : Entry :=
  e.fill c.name (h.lastIno + 1) c.ino (h.inodes di).iIno c.inoParent ip

/-- The host with a new link. -/
def linked (h : Host) (dir di : Ptr) (c : Control) (table : Table) : Host :=
  { h.made dir di c.name (linkMode c.mode) with table := table }

/-- `rdma_create` makes the link where it finds what it needs. -/
theorem makeLink_eq (hn : h.dcache.ptrs.Nodup) (hfree : h.nextPtr ∉ h.dcache.ptrs)
    (hlt : di < h.nextPtr) (hdead : (h.inodes di).dead = false) (hl : h.Linkable env c dir di) :
    h.makeLink env c = .ok (h.made dir di c.name (linkMode c.mode), h.nextPtr, dir) := by
  obtain ⟨x, hx, hxi⟩ := Ready.exists_dentry hl.inode
  have hname : ¬ (c.name = [] ∨ 47 ∈ c.name ∨ 0 ∈ c.name) := by
    rintro (h | h | h)
    · exact hl.name.1 h
    · exact hl.name.2.1 h
    · exact hl.name.2.2 h
  have hlook : h.lookupOneLen env dir c.name =
      .ok (h.looked h.dcache dir c.name, .ok h.nextPtr) := by
    unfold lookupOneLen lookupNd
    rw [if_neg hname]
    simp only [inodeOf?, hl.inode, Option.map_some, if_pos hl.search]
    exact lookupHash_miss (by simp [inodeOf?, hl.inode]) hl.isDir hdead hl.miss hfree hl.length
  have hdi : (h.looked h.dcache dir c.name).dInode? dir = some di :=
    (dInode?_looked_dir hn hx hfree).trans hxi
  have hmk := wjfsMknodRdma_looked hn hx hfree hlt hl.memory c.name (linkMode c.mode)
  -- the caller of the caller drops the second reference by hand
  have hdec : (h.madeIn h.dcache dir di c.name (linkMode c.mode) 2).mapDcache
      (·.update h.nextPtr Dentry.dec) = h.made dir di c.name (linkMode c.mode) := by
    unfold made madeIn mapDcache
    simp only
    rw [Dcache.update_plant (k := h.nextPtr) rfl Dcache.keeps_dec hfree]
    rfl
  have hsome : ¬ (h.dInode? dir).isNone = true := by simp [hl.inode]
  unfold makeLink wjfsCreateFile wjfsCreateByName
  rw [hl.parent]
  simp only [if_neg hsome, hlook, hdi, hmk, bind, Except.bind, if_true, hdec]

/-- And it records it if there is a free entry. -/
theorem rdmaCreateParsed_eq (hn : h.dcache.ptrs.Nodup) (hfree : h.nextPtr ∉ h.dcache.ptrs)
    (hlt : di < h.nextPtr) (hdead : (h.inodes di).dead = false) (hl : h.Linkable env c dir di) :
    h.rdmaCreateParsed env c ip =
      (h.table.insert (h.linkEntry di c ip)).map fun table => h.linked dir di c table := by
  obtain ⟨x, hx, hxi⟩ := Ready.exists_dentry hl.inode
  have hp := Dcache.mem_ptrs_of_node? hx
  have hself : (h.made dir di c.name (linkMode c.mode)).dentryOf? h.nextPtr =
      some (some dir, (liveDentry h.nextPtr c.name (h.nextPtr + 1)).withCount 1) :=
    Dcache.node?_plant_self hn hp hfree rfl
  have hpar : (h.made dir di c.name (linkMode c.mode)).dentryOf? dir = some (x.1, x.2.get) :=
    Dcache.node?_plant_parent hn hp hfree hx
  have hne : di ≠ h.nextPtr + 1 := Nat.ne_of_lt (Nat.lt_succ_of_lt hlt)
  rw [rdmaCreateParsed_def, makeLink_eq hn hfree hlt hdead hl]
  show (h.made dir di c.name (linkMode c.mode)).recordLink h.nextPtr dir c ip = _
  unfold recordLink
  simp only [dName?, inodeOf?, dInode?, hself, hpar, Option.map_some, Option.bind_some,
    Dentry.withCount, liveDentry, negDentry, Dentry.get, hxi]
  simp only [made, madeIn, if_true, if_neg hne, iIno_newInode]
  change (h.table.insert (h.linkEntry di c ip) >>= fun table => _) = _
  cases h.table.insert (h.linkEntry di c ip) <;> rfl

/-- `wjfs_mknod_rdma` of a dentry that has an inode: `d_instantiate` stops the
kernel, unless there was no memory for the new inode. -/
theorem wjfsMknodRdma_positive {k i : Ptr} {mode : Mode} {g : Host}
    (hi : h.dInode? k = some i) :
    h.wjfsMknodRdma env di k mode ≠ .ok (g, none) := by
  intro hr
  unfold wjfsMknodRdma at hr
  have hget : (h.wjfsGetInode env mode).1.dcache = h.dcache := by
    unfold wjfsGetInode
    split <;> rfl
  split at hr
  · cases hr
  · next g₁ j hg =>
      obtain ⟨g₂, hinst, -⟩ := bind_eq_ok hr
      rw [hg] at hget
      have hsgid : (g₁.inheritSgid di j mode).dcache = h.dcache := by
        unfold inheritSgid
        split
        · exact hget
        · exact hget
      have hsome : ((g₁.inheritSgid di j mode).dInode? k).isSome = true := by
        rw [dInode?_congr hsgid, hi]
        rfl
      rw [dInstantiate, if_pos hsome] at hinst
      cases hinst

/-- Whatever frame `rdma_create` survives, it found a directory to put the
link in, and the name was free there. -/
theorem exists_linkable (ht : h.Ready) (hok : h.rdmaCreateParsed env c ip = .ok h') :
    ∃ dir di, h.Linkable env c dir di := by
  unfold rdmaCreateParsed at hok
  cases hpar : h.resolveParent c.nameParent with
  | none => rw [hpar] at hok; cases hok
  | some dir =>
  rw [hpar] at hok
  cases hdi : h.dInode? dir with
  | none => simp [hdi] at hok
  | some di =>
  simp only [hdi, Option.isNone_some, Bool.false_eq_true, if_false] at hok
  obtain ⟨⟨g, new⟩, hfile, hok⟩ := bind_eq_ok hok
  cases new with
  | none => cases hok
  | some new =>
  obtain ⟨⟨g', dentry, err⟩, hby, hfile⟩ := bind_eq_ok hfile
  have herr : err = none := by
    by_contra hne
    simp only [if_neg hne] at hfile
    cases hfile
  obtain ⟨⟨g₁, look⟩, hlook, hby⟩ := bind_eq_ok hby
  cases look with
  | error e => cases hby
  | ok k =>
  -- the lookup went well, so it was made in a directory and under a good name
  unfold lookupOneLen lookupNd lookupHash at hlook
  by_cases hname : c.name = [] ∨ 47 ∈ c.name ∨ 0 ∈ c.name
  · rw [if_pos hname] at hlook; cases hlook
  by_cases hperm : env.inodePermission (h.inodes di) .exec = true
  swap
  · simp [hname, inodeOf?, hdi, hperm] at hlook
  simp only [if_neg hname, inodeOf?, hdi, Option.map_some, if_pos hperm] at hlook
  cases hl : h.dcache.dLookup dir c.name with
  | some d =>
      -- the name is taken
      rw [hl] at hlook
      cases hlook
      rw [← (Dcache.dLookup_some hl).2.2] at hl
      have hd := dentryOf?_of_dLookup ht.nodup hl
      obtain ⟨i, hi⟩ := Option.isSome_iff_exists.mp
        (ht.live dir d (Dcache.mem_nodes_of_node? hd)).2.2.2
      have hdik : (h.dget d.ptr).dInode? d.ptr = some i := by
        rw [dInode?_dget, dInode?, hd]
        exact hi
      simp only [dInode?_dget, hdi] at hby
      obtain ⟨⟨g₂, err'⟩, hmk, hby⟩ := bind_eq_ok hby
      cases hby
      obtain rfl : err' = none := herr
      exact absurd hmk (wjfsMknodRdma_positive hdik)
  | none =>
      obtain ⟨x, hx, hxi⟩ := Ready.exists_dentry hdi
      have hdead := (ht.alive x (Dcache.mem_nodes_of_node? hx) di hxi).1
      simp only [hl, hdead, Bool.false_eq_true, if_false] at hlook
      by_cases hdir : (h.inodes di).isDir = true
      swap
      · simp [hdir] at hlook
      simp only [if_pos hdir, wjfsLookup] at hlook
      by_cases hlen : 255 < c.name.length
      · simp [hlen] at hlook
      simp only [not_or] at hname
      refine ⟨dir, di, hpar, hdi, hdir, hperm, hl, hname, by omega, ?_⟩
      by_contra hmem
      rw [if_neg hlen] at hlook
      cases hlook
      simp only at hby
      split at hby
      · cases hby
      · obtain ⟨⟨g₂, err'⟩, hmk, hby⟩ := bind_eq_ok hby
        cases hby
        obtain rfl : err' = none := herr
        simp [wjfsMknodRdma, wjfsGetInode, hmem] at hmk

/-- What a create frame does, if anything. -/
theorem rdmaCreateParsed_cases (ht : h.Ready) (hok : h.rdmaCreateParsed env c ip = .ok h') :
    ∃ dir di table, h.Linkable env c dir di ∧
      h.table.insert (h.linkEntry di c ip) = .ok table ∧ h' = h.linked dir di c table := by
  obtain ⟨dir, di, hl⟩ := exists_linkable ht hok
  obtain ⟨x, hx, hxi⟩ := Ready.exists_dentry hl.inode
  have hxm := Dcache.mem_nodes_of_node? hx
  rw [rdmaCreateParsed_eq ht.nodup ht.nextPtr_not_mem (ht.inode_lt x hxm di hxi)
    (ht.alive x hxm di hxi).1 hl] at hok
  cases hins : h.table.insert (h.linkEntry di c ip) with
  | error f => rw [hins] at hok; cases hok
  | ok table =>
      rw [hins] at hok
      cases hok
      exact ⟨dir, di, table, hl, hins, rfl⟩

theorem linkMode_fmt (mode : CInt) : (linkMode mode).fmt ≠ .zero := by
  unfold linkMode
  split <;> simp

theorem Tidy.linked (ht : h.Tidy pin) (hl : h.Linkable env c dir di) (table : Table) :
    (h.linked dir di c table).Tidy (Function.update pin h.nextPtr 1) :=
  (ht.made hl.inode hl.isDir (linkMode_fmt c.mode)).setTable table

/-! ## remove frames -/

/-- The dentry that a remove frame resolves to. -/
def resolved? (h : Host) (c : Control) : Option Dentry :=
  h.findDentryByIno h.root (h.table.myIno c.ino c.inoParent)

/-- The host with the entry of a removed link free. -/
def released (h : Host) (c : Control) : Host :=
  { h with table := h.table.release c.ino c.inoParent }

/-- What a remove frame does once it has found a dentry. -/
def removed (h : Host) (c : Control) (dir : Ptr) (d : Dentry) (i : Ptr) : Host :=
  if c.mode ≠ 0 then (h.released c).wjfsRmdirRdma dir d.ptr i
  else (h.released c).wjfsUnlinkRdma d.ptr i

/-- What a remove frame resolves to: a dentry other than the root, whose
inode has the number that the table gives. -/
structure Resolved (h : Host) (c : Control) (p dir : Ptr) (d : Dentry) (i : Ptr) : Prop where
  found : h.resolved? c = some d
  mem : (some p, d) ∈ h.dcache.nodes
  inode : d.dInode = some i
  parent : h.dInode? p = some dir
  ino : (h.inodes i).iIno = h.table.myIno c.ino c.inoParent

theorem rdmaRemoveParsed_def (c : Control) : h.rdmaRemoveParsed c =
    match h.resolved? c with
    | none => .ok (h.released c)
    | some d =>
        match d.dInode, (h.released c).dInode? ((h.released c).dParent d.ptr) with
        | some i, some dir => .ok (h.removed c dir d i)
        | _, _ => .error .nullDeref := rfl

/-- A remove frame never faults a host whose directories are directories: it
finds nothing, or a dentry with an inode and a parent. -/
theorem rdmaRemoveParsed_inv (hn : h.dcache.ptrs.Nodup)
    (hdirs : ∀ p d, (some p, d) ∈ h.dcache.nodes →
      ∃ i, h.dInode? p = some i ∧ (h.inodes i).isDir = true) (c : Control) :
    (h.resolved? c = none ∧ h.rdmaRemoveParsed c = .ok (h.released c)) ∨
    ∃ p dir d i, h.Resolved c p dir d i ∧ h.rdmaRemoveParsed c = .ok (h.removed c dir d i) := by
  rw [rdmaRemoveParsed_def]
  cases hr : h.resolved? c with
  | none => exact .inl ⟨rfl, rfl⟩
  | some d =>
      have hr' := hr
      rw [resolved?, findDentryByIno, findSubdirs_eq] at hr'
      obtain ⟨q, hq⟩ := exists_of_mem_visit (some h.root) (List.mem_of_find?_eq_some hr')
      obtain ⟨p, rfl⟩ : ∃ p, q = some p := by
        rcases Forest.parent_of_mem_flat hq with hp | ⟨k, -, hk⟩
        · exact ⟨_, hp⟩
        · exact ⟨k, hk⟩
      have hd : (some p, d) ∈ h.dcache.nodes := Forest.flat_sub_subset hn hq
      obtain ⟨dir, hdir, -⟩ := hdirs p d hd
      have htest := List.find?_some hr'
      obtain ⟨i, hi, hino⟩ := (Option.any_eq_true _ _).mp htest
      have hpar : (h.released c).dParent d.ptr = p := by
        have hnode : (h.released c).dentryOf? d.ptr = some (some p, d) :=
          Dcache.node?_of_mem hn hd
        simp [dParent, hnode]
      have hdir' : (h.released c).dInode? p = some dir := hdir
      refine .inr ⟨p, dir, d, i, ⟨hr, hd, hi, hdir, by simpa using hino⟩, ?_⟩
      simp only [hi, hpar, hdir']

/-- So it never faults a host in order. -/
theorem rdmaRemoveParsed_eq (ht : h.Tidy pin) (c : Control) :
    (h.resolved? c = none ∧ h.rdmaRemoveParsed c = .ok (h.released c)) ∨
    ∃ p dir d i, h.Resolved c p dir d i ∧ h.rdmaRemoveParsed c = .ok (h.removed c dir d i) :=
  rdmaRemoveParsed_inv ht.sound.nodup ht.dirs c

theorem table_removed {d : Dentry} {i : Ptr} :
    (h.removed c dir d i).table = h.table.release c.ino c.inoParent := by
  unfold removed wjfsRmdirRdma wjfsUnlinkRdma simpleUnlink
  split
  · split <;> rfl
  · rfl

/-- The table after a remove frame, whatever else it does. -/
theorem rdmaRemoveParsed_table (hok : h.rdmaRemoveParsed c = .ok h') :
    h'.table = h.table.release c.ino c.inoParent := by
  rw [rdmaRemoveParsed_def] at hok
  split at hok
  · cases hok
    rfl
  · split at hok
    · cases hok
      exact table_removed
    · cases hok

/-- The last `dput` of a leaf that its pin alone held. -/
theorem dput_eq_pruned (ht : h.Tidy pin) {p : Ptr} {d : Dentry}
    (hd : (some p, d) ∈ h.dcache.nodes) (h0 : h.dcache.kids d.ptr = 0) (hopen : d.ptr ∉ h.files) :
    h.dput d.ptr = h.pruned p d.ptr :=
  mapDcache_congr (Dcache.dput_last (Dcache.node?_of_mem ht.sound.nodup hd)
    (ht.count_leaf hd h0 hopen) (.inl (ht.sound.op p d hd)))

/-- What a remove frame does that resolves to a leaf: it takes the leaf out,
whatever its flag says. -/
theorem removed_eq (ht : h.Tidy pin) {p : Ptr} {d : Dentry} {i : Ptr}
    (hr : h.Resolved c p dir d i) (h0 : h.dcache.kids d.ptr = 0) (hopen : d.ptr ∉ h.files) :
    h.removed c dir d i =
      let g := ((h.released c).pruned p d.ptr).setInode i Inode.dropNlink
      if c.mode ≠ 0 then (g.setInode i Inode.dropNlink).setInode dir Inode.dropNlink else g := by
  have ht' : (h.released c).Tidy pin := ht.setTable _
  have hempty : (h.released c).dcache.simpleEmpty d.ptr = true := ht'.simpleEmpty_of_kids h0
  have hput := dput_eq_pruned ht' hr.mem h0 hopen
  unfold removed wjfsRmdirRdma wjfsUnlinkRdma simpleUnlink
  simp only [dput_setInode, hput, hempty, Bool.not_true, Bool.false_eq_true, if_false]

/-- The host without the link that a remove frame named. -/
def forgotten (h : Host) (c : Control) (p dir : Ptr) (d : Dentry) (i : Ptr) : Host :=
  let g := ((h.released c).pruned p d.ptr).setInode i Inode.dropNlink
  if (h.inodes i).isDir then (g.setInode i Inode.dropNlink).setInode dir Inode.dropNlink else g

/-- The flag of a remove frame says what the dentry is that it resolves to. -/
def FlagMatches (h : Host) (c : Control) : Prop :=
  ∀ d i, h.resolved? c = some d → d.dInode = some i → (c.mode ≠ 0 ↔ (h.inodes i).isDir = true)

/-- What a remove frame with the right flag does: it frees an entry, and
unless the dentry has children, takes it out of the tree. -/
theorem rdmaRemoveParsed_cases (ht : h.Tidy pin) (hflag : h.FlagMatches c)
    (hopen : ∀ d, h.resolved? c = some d → d.ptr ∉ h.files) :
    h.rdmaRemoveParsed c = .ok (h.released c) ∨
      ∃ p dir d i, h.Resolved c p dir d i ∧ h.dcache.kids d.ptr = 0 ∧
        h.rdmaRemoveParsed c = .ok (h.forgotten c p dir d i) := by
  obtain ⟨-, heq⟩ | ⟨p, dir, d, i, hr, heq⟩ := rdmaRemoveParsed_eq ht c
  · exact .inl heq
  have hm := hflag d i hr.found hr.inode
  by_cases h0 : h.dcache.kids d.ptr = 0
  · refine .inr ⟨p, dir, d, i, hr, h0, ?_⟩
    rw [heq, removed_eq ht hr h0 (hopen d hr.found)]
    simp only [hm, forgotten]
  · -- only a directory has children, and `simple_empty` finds them
    have hdik : h.dInode? d.ptr = some i := by
      have hnode : h.dentryOf? d.ptr = some (some p, d) := Dcache.node?_of_mem ht.sound.nodup hr.mem
      rw [dInode?, hnode]
      exact hr.inode
    have hdir : (h.inodes i).isDir = true := by
      by_contra hdir
      exact h0 (ht.kids_eq_zero hdik (by simpa using hdir))
    have hempty : h.dcache.simpleEmpty d.ptr = false := by
      by_contra hempty
      exact h0 (ht.kids_of_simpleEmpty (by simpa using hempty))
    left
    rw [heq, removed, if_pos (hm.mpr hdir), wjfsRmdirRdma, released, hempty]
    rfl

theorem Tidy.released (ht : h.Tidy pin) (c : Control) : (h.released c).Tidy pin := ht.setTable _

theorem Tidy.forgotten (ht : h.Tidy pin) {p : Ptr} {d : Dentry} {i : Ptr}
    (hr : h.Resolved c p dir d i) (h0 : h.dcache.kids d.ptr = 0) :
    (h.forgotten c p dir d i).Tidy pin := by
  have hg := (((ht.released c).pruned hr.mem h0).dropNlink i)
  unfold Host.forgotten
  split
  · exact (hg.dropNlink i).dropNlink dir
  · exact hg

end Host

end Wjfs
