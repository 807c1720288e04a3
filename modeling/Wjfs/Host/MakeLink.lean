import Wjfs.Host.Grow

/-!
# Wjfs.Host.MakeLink

What the two control frames do to a sane host, whatever the frame.

`rdma_create` makes the dentry of a link, by `makeLink`, and then records it in
the table, by `recordLink`.  `makeLink_spec` says what there is to record when
the first part gets through.  `rdma_remove` frees an entry, and what it does to
the tree is a removal.
-/

namespace Wjfs

namespace Host

variable {h h' g : Host} {env : Env} {c : Control} {ip : Bytes} {new parent : Ptr}

/-! ## making a link -/

/-- A link that was made: one more dentry in the directory that the frame
resolves to, with the frame's name and the next number. -/
structure MadeLink (h : Host) (c : Control) (g : Host) (new parent dir : Ptr) : Prop where
  parentInode : h.dInode? parent = some dir
  neg : h.dInode? new = none
  nul : 0 ∉ c.name
  grown : Grown (fun k p n => k = new ∧ p = parent ∧ n = h.lastIno + 1) h g
  name : g.dName? new = some c.name
  inode : ∃ i, g.inodeOf? new = some i ∧ i.iIno = h.lastIno + 1
  parentNumber : ∃ i, g.inodeOf? parent = some i ∧ i.iIno = h.number dir

/-- The number of a dentry that was positive before. -/
theorem Grown.number_of_dInode? {N : Ptr → Ptr → CInt → Prop} {k i j : Ptr} (hs : h.Sane)
    (hg : Grown N h g) (hN : ∀ p n, ¬ N k p n) (hi : h.dInode? k = some i)
    (hj : g.dInode? k = some j) : g.number j = h.number i := by
  obtain ⟨p, hl⟩ := lies_of_dInode? hj
  obtain ⟨x, hx, i', hxk, -, hxi, hnum⟩ := (hg.places _ _ _ hl).resolve_right (hN p _)
  have hii : i' = i := by
    rw [← hxk, dInode?_of_mem hs.held.nodup hx, hxi] at hi
    exact Option.some.inj hi
  rw [← hnum, hii]

theorem makeLink_spec (hs : h.Sane) (hok : h.makeLink env c = .ok (g, new, parent)) :
    ∃ dir, h.MadeLink c g new parent dir := by
  unfold makeLink at hok
  split at hok
  · cases hok
  next parent' _ =>
  cases hdir : h.dInode? parent' with
  | none =>
      rw [hdir] at hok
      cases hok
  | some dir =>
  simp only [hdir, Option.isNone_some, Bool.false_eq_true, if_false] at hok
  obtain ⟨⟨r, o⟩, hfile, hok⟩ := bind_eq_ok hok
  obtain ⟨⟨r', k, e⟩, hby, hfile⟩ := bind_eq_ok hfile
  cases hfile
  by_cases he : e = none
  swap
  · simp only [if_neg he] at hok
    cases hok
  simp only [if_pos he] at hok
  cases hok
  -- the lookup of the new name
  obtain ⟨⟨g, x⟩, hlook, hby⟩ := bind_eq_ok hby
  unfold lookupOneLen at hlook
  split at hlook
  · cases hlook
    cases hby
  next hname =>
  obtain ⟨hg, ⟨e, rfl⟩ | ⟨k', rfl, hl⟩⟩ := lookupNd_cases hs hlook
  · cases hby
  simp only at hby
  split at hby
  · cases hby
  obtain ⟨⟨r₁, e₁⟩, hmk, hby⟩ := bind_eq_ok hby
  cases hby
  -- the inode and its dentry
  unfold wjfsMknodRdma at hmk
  split at hmk
  · cases hmk
    cases he
  next g₁ i hget =>
  obtain ⟨g₂, hinst, hmk⟩ := bind_eq_ok hmk
  cases hmk
  obtain ⟨d, hd, rfl, ⟨-, hdn⟩, -, hdi⟩ := hl.node hs hdir
  obtain ⟨hneg, hg₂⟩ := mknod_grown hg.sane hd hget hinst
  have hnew : h.dInode? d.ptr = none := hdi.trans hneg
  have hgrown := hg.after hg₂
  rw [hl.lastIno] at hgrown
  -- the reference taken is given back
  have hcancel : (g₂.dget d.ptr).mapDcache (·.update d.ptr Dentry.dec) = g₂ := by
    simp [Host.dget, Host.mapDcache, Dcache.dget]
  rw [hcancel]
  -- the tree is that of the lookup, with the inode bound
  have htree : g₂.dcache = g.dcache.update d.ptr (Dentry.instantiate i) := by
    obtain ⟨-, hdcache, -, -⟩ := wjfsGetInode_grown hg.sane hget
    unfold dInstantiate at hinst
    split at hinst
    · cases hinst
    · cases hinst
      rw [dcache_mapDcache, ← hdcache]
      congr 1
      unfold inheritSgid
      split <;> rfl
  have hkeeps : Dcache.Keeps (Dentry.instantiate i) := Dcache.keeps_instantiate i
  have hnode : g₂.dentryOf? d.ptr = some (some parent, d.instantiate i) := by
    rw [dentryOf?, htree]
    exact Dcache.node?_update_self hkeeps (Dcache.node?_of_mem hg.sane.held.nodup hd)
  have hi : g₂.dInode? d.ptr = some i := by
    rw [Host.dInode?, hnode]
    rfl
  have hne : parent ≠ d.ptr := fun heq => by
    rw [heq, hnew] at hdir
    cases hdir
  have hp : g₂.dInode? parent = some dir := by
    have hpar := hl.dInode? hs.held.nodup hs.nextPtr_not_mem hdir hdir
    rw [Host.dInode?, dentryOf?, htree, Dcache.node?_update_ne hkeeps hne]
    exact hpar
  have hnum : (g₂.inodes i).iIno = h.lastIno + 1 := by
    obtain ⟨p, hlies⟩ := lies_of_dInode? hi
    rcases hgrown.places _ _ _ hlies with ⟨x, hx, j, hxk, -, hxj, -⟩ | hN
    · rw [← hxk, dInode?_of_mem hs.held.nodup hx, hxj] at hnew
      cases hnew
    · exact hN.2.2
  have hpar : (g₂.inodes dir).iIno = h.number dir :=
    hgrown.number_of_dInode? hs (fun _ _ hN => hne hN.1) hdir hp
  simp only [not_or] at hname
  exact ⟨dir, hdir, hnew, hname.2.2, hgrown, by rw [dName?, hnode, Option.map_some, ← hdn]; rfl,
    ⟨_, by rw [inodeOf?, hi]; rfl, hnum⟩, ⟨_, by rw [inodeOf?, hp]; rfl, hpar⟩⟩

/-! ## when a link cannot be made -/

/-- The ways in which the making of a link can fail: there is no directory of
the parent's name, `lookup_one_len` gives no dentry for the name, or there is
no inode to be had. -/
def CreateFails (env : Env) (h : Host) (c : Control) : Prop :=
  h.resolveParent c.nameParent = none ∨
    (∃ parent, h.resolveParent c.nameParent = some parent ∧
      ∀ g k, h.lookupOneLen env parent c.name ≠ .ok (g, .ok k)) ∨
    env.newInode = false

/-- `lookup_one_len` itself can only follow a `NULL` pointer. -/
theorem lookupOneLen_error {base : Ptr} {name : Bytes} {f : Fault}
    (hf : h.lookupOneLen env base name = .error f) : f = .nullDeref := by
  unfold lookupOneLen lookupNd lookupHash at hf
  grind

/-- Without a dentry for the name, `wjfs_create_by_name` follows a pointer it
must not. -/
theorem wjfsCreateByName_of_lookup {name : Bytes} (mode : Mode)
    (hno : ∀ g k, h.lookupOneLen env parent name ≠ .ok (g, .ok k)) :
    h.wjfsCreateByName env name mode parent = .error .nullDeref ∨
      h.wjfsCreateByName env name mode parent = .error .errPtr := by
  unfold wjfsCreateByName
  cases hl : h.lookupOneLen env parent name with
  | error f =>
      rw [lookupOneLen_error hl]
      exact .inl rfl
  | ok x =>
      obtain ⟨g, e | k⟩ := x
      · exact .inr rfl
      · exact absurd hl (hno g k)

/-- Without an inode, `wjfs_create_file` returns `NULL` at best. -/
theorem wjfsCreateFile_of_newInode (h : Host) (name : Bytes) (mode : Mode) (parent : Ptr)
    (hno : env.newInode = false) :
    (∃ g, h.wjfsCreateFile env name mode parent = .ok (g, none)) ∨
      h.wjfsCreateFile env name mode parent = .error .nullDeref ∨
      h.wjfsCreateFile env name mode parent = .error .errPtr := by
  unfold wjfsCreateFile wjfsCreateByName
  cases hl : h.lookupOneLen env parent name with
  | error f =>
      rw [lookupOneLen_error hl]
      exact .inr (.inl rfl)
  | ok x =>
      obtain ⟨g, e | k⟩ := x
      · exact .inr (.inr rfl)
      · cases hp : g.dInode? parent with
        | none =>
            refine .inr (.inl ?_)
            simp [bind, Except.bind, hp]
        | some dir =>
            refine .inl ⟨g, ?_⟩
            simp [bind, Except.bind, hp, wjfsMknodRdma, wjfsGetInode, hno]

/-- Each failure ends in a pointer that must not be followed. -/
theorem makeLink_of_fails (hf : h.CreateFails env c) :
    h.makeLink env c = .error .nullDeref ∨ h.makeLink env c = .error .errPtr := by
  unfold makeLink
  cases hres : h.resolveParent c.nameParent with
  | none => exact .inl rfl
  | some parent =>
      simp only
      split
      · exact .inl rfl
      rcases hf with hnone | ⟨parent', hres', hno⟩ | hno
      · rw [hres] at hnone
        cases hnone
      · rw [hres] at hres'
        cases hres'
        unfold wjfsCreateFile
        rcases wjfsCreateByName_of_lookup (linkMode c.mode) hno with hby | hby
        · exact .inl (by rw [hby]; rfl)
        · exact .inr (by rw [hby]; rfl)
      · rcases wjfsCreateFile_of_newInode h c.name (linkMode c.mode) parent hno with
          ⟨g, hfile⟩ | hfile | hfile
        · exact .inl (by rw [hfile]; rfl)
        · exact .inl (by rw [hfile]; rfl)
        · exact .inr (by rw [hfile]; rfl)

/-- A create frame that fails returns, with the tree and the table as they
were. -/
def FailsCleanly (env : Env) (h : Host) (buf ip : Bytes) : Prop :=
  ∀ c, parseControl buf = .ok c → h.CreateFails env c →
    ∃ h', h.rdmaCreate env buf ip = .ok h' ∧ h'.dcache = h.dcache ∧ h'.table = h.table

/-- **No failed create is handled**: for every state and every frame, a create
frame fails cleanly exactly if it does not fail. -/
theorem failsCleanly_iff (env : Env) (h : Host) (buf ip : Bytes) :
    h.FailsCleanly env buf ip ↔ ∀ c, parseControl buf = .ok c → ¬ h.CreateFails env c := by
  constructor
  · intro hclean c hparse hf
    obtain ⟨h', hok, -⟩ := hclean c hparse hf
    rw [rdmaCreate, hparse] at hok
    simp only [bind, Except.bind] at hok
    rw [rdmaCreateParsed_def] at hok
    rcases makeLink_of_fails hf with hmake | hmake
    · rw [hmake] at hok
      cases hok
    · rw [hmake] at hok
      cases hok
  · intro hno c hparse hf
    exact absurd hf (hno c hparse)

/-- The frame `CR 7 x 5 y 0000` on a fresh mount, which has no directory
`y`: the name of the parent that was not found is printed. -/
theorem create_without_parent :
    parseControl (wjfsClientCreate 7 [120] 5 [121] false) = .ok ⟨7, [120], 5, [121], 0⟩ ∧
      (mounted 0 0o755 0 Table.initial).CreateFails (.server true) ⟨7, [120], 5, [121], 0⟩ ∧
      (mounted 0 0o755 0 Table.initial).rdmaCreate (.server true)
        (wjfsClientCreate 7 [120] 5 [121] false) [] = .error .nullDeref := by
  have hparse : parseControl (wjfsClientCreate 7 [120] 5 [121] false) =
      .ok ⟨7, [120], 5, [121], 0⟩ := by decide
  have hres : (mounted 0 0o755 0 Table.initial).resolveParent [121] = none := by decide
  refine ⟨hparse, .inl hres, ?_⟩
  rw [rdmaCreate, hparse]
  simp only [bind, Except.bind, rdmaCreateParsed, hres]

/-! ## the whole frame -/

/-- What a create frame does: it adds one dentry that had no inode to the
directory it resolves to, with the next number, and records it. -/
structure Recorded (h : Host) (c : Control) (ip : Bytes) (h' : Host) where
  new : Ptr
  parent : Ptr
  dir : Ptr
  tree : Host
  name : Bytes
  neg : h.dInode? new = none
  parentInode : h.dInode? parent = some dir
  grown : Grown (fun k p n => k = new ∧ p = parent ∧ n = h.lastIno + 1) h tree
  insert : h.table.insert (fun e => e.fill name (h.lastIno + 1) c.ino (h.number dir) c.inoParent ip)
    = .ok h'.table
  eq : h' = { tree with table := h'.table }

/-- The stores into the table, for a link that was made. -/
theorem MadeLink.recordLink {dir : Ptr} (hm : h.MadeLink c g new parent dir) :
    g.recordLink new parent c ip = (h.table.insert fun e =>
      e.fill c.name (h.lastIno + 1) c.ino (h.number dir) c.inoParent ip) >>=
        fun table => .ok { g with table := table } := by
  obtain ⟨i, hi, hnum⟩ := hm.inode
  obtain ⟨p, hp, hpar⟩ := hm.parentNumber
  unfold Host.recordLink
  simp only [hm.name, hi, hp, hnum, hpar, hm.grown.table]

/-- The whole frame, for a link that was made. -/
theorem MadeLink.rdmaCreate_eq {dir : Ptr} {buf : Bytes} (hm : h.MadeLink c g new parent dir)
    (hparse : parseControl buf = .ok c) (hmake : h.makeLink env c = .ok (g, new, parent)) :
    h.rdmaCreate env buf ip = (h.table.insert fun e =>
      e.fill c.name (h.lastIno + 1) c.ino (h.number dir) c.inoParent ip) >>=
        fun table => .ok { g with table := table } := by
  rw [rdmaCreate, hparse, ← hm.recordLink]
  show h.rdmaCreateParsed env c ip = _
  rw [rdmaCreateParsed_def, hmake]
  rfl

theorem rdmaCreateParsed_grown (hs : h.Sane) (hok : h.rdmaCreateParsed env c ip = .ok h') :
    Nonempty (h.Recorded c ip h') := by
  rw [rdmaCreateParsed_def] at hok
  obtain ⟨⟨g, new, parent⟩, hmake, hok⟩ := bind_eq_ok hok
  obtain ⟨dir, hm⟩ := makeLink_spec hs hmake
  rw [hm.recordLink] at hok
  obtain ⟨t, hins, hok⟩ := bind_eq_ok hok
  cases hok
  exact ⟨⟨new, parent, dir, g, c.name, hm.neg, hm.parentInode, hm.grown, hins, rfl⟩⟩

/-- A remove frame adds nothing: it frees an entry, and what is done to the
tree is a removal. -/
theorem rdmaRemoveParsed_fades (hs : h.Sane) (hok : h.rdmaRemoveParsed c = .ok h') :
    Fades (h.released c) h' := by
  have hs' : (h.released c).Sane := ⟨hs.held, hs.unmounted, hs.ptr_lt, hs.inode_lt, hs.dirs⟩
  rw [rdmaRemoveParsed_def] at hok
  split at hok
  · cases hok
    exact .refl hs'
  split at hok
  swap
  · cases hok
  next i dir _ _ =>
  cases hok
  have hf₁ := Fades.setInode hs' i (f := Inode.dropNlink) fun _ => ⟨rfl, rfl⟩
  unfold removed
  split
  · unfold wjfsRmdirRdma
    split
    · exact .refl hs'
    have hf₂ := hf₁.trans
      (.setInode (hf₁.sane hs') i (f := Inode.dropNlink) fun _ => ⟨rfl, rfl⟩)
    exact hf₂.trans ((Fades.dput (hf₂.sane hs') _).trans
      (.setInode ((Fades.dput (hf₂.sane hs') _).sane (hf₂.sane hs')) dir fun _ => ⟨rfl, rfl⟩))
  · exact hf₁.trans (.dput (hf₁.sane hs') _)

end Host

end Wjfs
