import Wjfs.Agreement
import Wjfs.FileTree
import Wjfs.Net

/-!
# Wjfs.Tree

The tree that a host shows, as a file tree.

The dentries of a host in order are directory entries in the sense of
`FileTree.Entries`, so what its calls and the frames of its peer do to them is
described by steps of the tree that they stand for.
-/

namespace Wjfs

open FileTree

/-- What a call asks for.  A lookup asks for nothing, and `wjfs_symlink` reports
success without making anything. -/
def Op.request : Op → Option (FileTree.Call Bytes)
  | .lookup .. | .symlink .. => none
  | .create path name _ | .mknod path name _ _ => some (.make path name false)
  | .mkdir path name _ => some (.make path name true)
  | .link oldPath oldName path name => some (.link oldPath oldName path name)
  | .rename oldPath oldName newPath newName => some (.rename oldPath oldName newPath newName)
  | .unlink path name => some (.remove path name false)
  | .rmdir path name => some (.remove path name true)

/-- What a call does to the tree that reports `err`: nothing if it fails. -/
def Op.Does (op : Op) (err : Option Errno) (T T' : FileTree Bytes Ptr) : Prop :=
  match err, op.request with
  | none, some c => T.Step c T'
  | _, _ => T' = T

namespace Host

variable {pin pin' : Ptr → Nat} {h h' g : Host} {env : Env} {op : Op} {err : Option Errno}
  {path q : List Bytes} {n : Bytes} {p i j k dir di : Ptr} {d : Dentry} {b : Bool}
  {x y : Option Ptr × Dentry} {T T' : FileTree Bytes Ptr}

/-- The host shows the tree: the inodes that its paths lead to. -/
def Presents (h : Host) (T : FileTree Bytes Ptr) : Prop :=
  ∀ path i b, T.has path i b ↔
    ∃ k, h.AtPath path k ∧ h.dInode? k = some i ∧ (h.inodes i).isDir = b

/-- The namespace can be read off the tree. -/
theorem Presents.names_iff (hT : h.Presents T) : h.Names path b ↔ ∃ i, T.has path i b := by
  constructor
  · rintro ⟨k, i, ha, hi, hb⟩
    exact ⟨i, (hT path i b).mpr ⟨k, ha, hi, hb⟩⟩
  · rintro ⟨i, hi⟩
    obtain ⟨k, ha, hk, hb⟩ := (hT path i b).mp hi
    exact ⟨k, i, ha, hk, hb⟩

/-! ## entries -/

theorem Tidy.eq_of_ptr (ht : h.Tidy pin) (hx : x ∈ h.dcache.bare) (hy : y ∈ h.dcache.bare)
    (hptr : x.2.ptr = y.2.ptr) : x = y := by
  have hn := ht.sound.nodup
  rw [← Dcache.map_ptr_bare] at hn
  exact List.inj_on_of_nodup_map hn hx hy hptr

/-- A dentry of a directory is hashed and has an inode. -/
theorem Tidy.exists_inode (ht : h.Tidy pin) (hd : (some p, d) ∈ h.dcache.bare) :
    d.dUnhashed = false ∧ ∃ i, d.dInode = some i := by
  obtain ⟨⟨q, e⟩, he, heq⟩ := Dcache.exists_of_mem_bare hd
  cases heq
  have hlive := ht.ready.live p e he
  exact ⟨hlive.1, Option.isSome_iff_exists.mp hlive.2.2.2⟩

/-- The dentry that an inode was found through. -/
theorem exists_bare (hi : h.dInode? k = some i) :
    ∃ x ∈ h.dcache.bare, x.2.ptr = k ∧ x.2.dInode = some i := by
  obtain ⟨x, hx, hxi⟩ := Ready.exists_dentry hi
  have hptr : x.2.ptr = k := Dcache.ptr_of_node? hx
  exact ⟨Dcache.strip x, Dcache.mem_bare_of_mem (Dcache.mem_nodes_of_node? hx), hptr, hxi⟩

/-- The dentries of a host in order, as directory entries. -/
def entries (h : Host) (ht : h.Tidy pin) (hs : h.Sane) : Entries Ptr Bytes Ptr where
  root := h.root
  entry p n k := ∃ d, (some p, d) ∈ h.dcache.bare ∧ d.dName = n ∧ d.ptr = k
  file k i b := ∃ x ∈ h.dcache.bare, x.2.ptr = k ∧ x.2.dInode = some i ∧ (h.inodes i).isDir = b
  entry_unique := by
    rintro p n k l ⟨d, hd, rfl, rfl⟩ ⟨e, he, hname, rfl⟩
    obtain ⟨⟨_, d'⟩, hd', heq⟩ := Dcache.exists_of_mem_bare hd
    cases heq
    obtain ⟨⟨_, e'⟩, he', heq⟩ := Dcache.exists_of_mem_bare he
    cases heq
    exact hs.held.distinct p d' e' hd' he' (ht.exists_inode hd).1 (ht.exists_inode he).1 hname.symm
  place := by
    rintro p q n m k ⟨d, hd, rfl, rfl⟩ ⟨e, he, rfl, hptr⟩
    cases ht.eq_of_ptr hd he hptr.symm
    exact ⟨rfl, rfl⟩
  top := by
    rintro p n ⟨d, hd, -, hptr⟩
    obtain ⟨⟨_, e⟩, he, heq⟩ := Dcache.exists_of_mem_bare hd
    cases heq
    -- the root is pinned twice
    have hle := ht.sound.pin_le p e he
    have htwo := ht.sound.pin_root
    rw [← show e.ptr = h.root from hptr] at htwo
    omega
  exists_file := by
    rintro p n k ⟨d, hd, -, rfl⟩
    obtain ⟨i, hi⟩ := (ht.exists_inode hd).2
    exact ⟨i, _, _, hd, rfl, hi, rfl⟩
  root_dir := by
    obtain ⟨i, hi, hdir⟩ := ht.root_dir
    obtain ⟨x, hx, hptr, hxi⟩ := exists_bare hi
    exact ⟨i, x, hx, hptr, hxi, hdir⟩
  dir := by
    rintro p n k ⟨d, hd, -⟩
    obtain ⟨⟨_, e⟩, he, heq⟩ := Dcache.exists_of_mem_bare hd
    cases heq
    obtain ⟨i, hi, hdir⟩ := ht.dirs p e he
    obtain ⟨x, hx, hptr, hxi⟩ := exists_bare hi
    exact ⟨i, x, hx, hptr, hxi, hdir⟩
  file_unique := by
    rintro k i j b c ⟨x, hx, rfl, hi, rfl⟩ ⟨y, hy, hptr, hj, rfl⟩
    obtain rfl := ht.eq_of_ptr hx hy hptr.symm
    obtain rfl := Option.some.inj (hi.symm.trans hj)
    exact ⟨rfl, rfl⟩
  kind := by
    rintro k l i b c ⟨x, hx, rfl, hi, rfl⟩ ⟨y, hy, rfl, hj, rfl⟩
    refine ⟨rfl, fun hdir => ?_⟩
    obtain ⟨x', hx', rfl⟩ := Dcache.exists_of_mem_bare hx
    obtain ⟨y', hy', rfl⟩ := Dcache.exists_of_mem_bare hy
    rw [ht.dir_unique x' hx' y' hy' i hi hj hdir]

section Entries

variable (ht : h.Tidy pin) (hs : h.Sane)

theorem path_iff : (h.entries ht hs).Path path k ↔ h.AtPath path k := by
  constructor
  · intro hp
    induction hp with
    | root => exact .root ht.sound.root_mem
    | @child path p k n _ he ih =>
        obtain ⟨d, hd, rfl, rfl⟩ := he
        obtain ⟨hhash, i, hi⟩ := ht.exists_inode hd
        obtain ⟨⟨_, e⟩, he, heq⟩ := Dcache.exists_of_mem_bare hd
        cases heq
        have hstep := AtPath.child ih he
          (positive_iff.mpr ⟨Option.isSome_iff_exists.mpr ⟨i, hi⟩, hhash⟩)
        exact hstep
  · intro ha
    induction ha with
    | root => exact .root
    | child _ hd _ ih => exact .child ih ⟨_, Dcache.mem_bare_of_mem hd, rfl, rfl⟩

theorem file_iff :
    (h.entries ht hs).file k i b ↔ h.dInode? k = some i ∧ (h.inodes i).isDir = b := by
  constructor
  · rintro ⟨x, hx, rfl, hi, hb⟩
    obtain ⟨x', hx', rfl⟩ := Dcache.exists_of_mem_bare hx
    exact ⟨(dInode?_of_mem ht.sound.nodup hx').trans hi, hb⟩
  · rintro ⟨hi, hb⟩
    obtain ⟨x, hx, hptr, hxi⟩ := exists_bare hi
    exact ⟨x, hx, hptr, hxi, hb⟩

/-- An inode that is not there yet is no file. -/
theorem Tidy.not_file (hi : h.nextPtr ≤ i) (k : Ptr) (b : Bool) :
    ¬ (h.entries ht hs).file k i b := by
  rintro ⟨y, hy, -, hyi, -⟩
  obtain ⟨z, hz, rfl⟩ := Dcache.exists_of_mem_bare hy
  exact absurd (ht.ready.inode_lt z hz _ hyi) (Nat.not_lt.mpr hi)

/-- A host in order shows the tree that its entries stand for. -/
theorem presents_tree : h.Presents (h.entries ht hs).tree := by
  intro path i b
  change (∃ k, _) ↔ _
  simp only [path_iff, file_iff]

end Entries

/-- A host shows one tree. -/
theorem Presents.eq (hT : h.Presents T) (hT' : h.Presents T') : T = T' :=
  eq_of_has fun path i b => (hT path i b).trans (hT' path i b).symm

/-- Every dentry of a host in order is at a path. -/
theorem Tidy.exists_atPath (ht : h.Tidy pin) (hi : h.dInode? k = some i) :
    ∃ path, h.AtPath path k := by
  obtain ⟨x, hx, -⟩ := Ready.exists_dentry hi
  have hptr : x.2.ptr = k := Dcache.ptr_of_node? hx
  rw [← hptr]
  refine Forest.flat_induction (S := h.dcache.nodes)
    (P := fun x => ∃ path, h.AtPath path x.2.ptr) ?_ (List.Subset.refl _) ?_ x
    (Dcache.mem_nodes_of_node? hx)
  · rintro y hy ⟨path, ha⟩ ⟨_, d⟩ hd rfl
    have hlive := ht.ready.live _ d hd
    exact ⟨_, .child ha hd (positive_iff.mpr ⟨hlive.2.2.2, hlive.1⟩)⟩
  · intro x hx hnone
    rw [ht.sound.top x hx hnone]
    exact ⟨[], .root ht.sound.root_mem⟩

/-! ## one dentry more or less -/

theorem Planted.grows (hp : Planted g h p d x i j) (ht : g.Tidy pin) (hs : g.Sane)
    (ht' : h.Tidy pin') (hs' : h.Sane) (hroot : h.root = g.root) :
    Entries.Grows (g.entries ht hs) (h.entries ht' hs') p d.dName d.ptr i (h.inodes i).isDir := by
  refine ⟨hroot, fun q m k => ?_, fun k l c => ?_, fun l c hfile => ?_⟩
  · constructor
    · rintro ⟨e, he, rfl, rfl⟩
      rcases hp.mem_bare.mp he with heq | he
      · cases heq
        exact .inr ⟨rfl, rfl, rfl⟩
      · exact .inl ⟨e, he, rfl, rfl⟩
    · rintro (⟨e, he, rfl, rfl⟩ | ⟨rfl, rfl, rfl⟩)
      · exact ⟨e, hp.mem_bare.mpr (.inr he), rfl, rfl⟩
      · exact ⟨d, hp.mem_bare.mpr (.inl rfl), rfl, rfl⟩
  · constructor
    · rintro ⟨y, hy, rfl, hl, rfl⟩
      rcases hp.mem_bare.mp hy with rfl | hy
      · obtain rfl := Option.some.inj (hl.symm.trans hp.inode)
        exact .inr ⟨rfl, rfl, rfl⟩
      · exact .inl ⟨y, hy, rfl, hl, (hp.same y hy l hl).2.symm⟩
    · rintro (⟨y, hy, rfl, hl, rfl⟩ | ⟨rfl, rfl, rfl⟩)
      · exact ⟨y, hp.mem_bare.mpr (.inr hy), rfl, hl, (hp.same y hy l hl).2⟩
      · exact ⟨_, hp.mem_bare.mpr (.inl rfl), rfl, hp.inode, rfl⟩
  · obtain ⟨y, hy, hptr, -⟩ := hfile
    exact hp.ptr_ne hy hptr

/-- `h'` shows what the call makes of the tree that `h` shows. -/
def Advances (h h' : Host) (c : FileTree.Call Bytes) : Prop :=
  ∃ T T', h.Presents T ∧ h'.Presents T' ∧ T.Step c T'

section Effects

variable (ht : h.Tidy h.onePin) (hs : h.Sane)
include ht hs

theorem advances_created {mode : Mode} (hs' : (h.created env dir di n mode).Sane)
    (hq : h.NewName env path n dir di) (hz : mode.fmt ≠ .zero) :
    Advances h (h.created env dir di n mode) (.make path n mode.isDir) := by
  obtain ⟨x, hp, -⟩ := ht.planted_created hq mode
  have ht' := ht.created_onePin hq hz
  have hg := hp.grows ht hs ht' hs' frame_created.1
  rw [ht.inodes_created hq mode, isDir_newInode] at hg
  exact ⟨_, _, presents_tree ht hs, presents_tree ht' hs',
    hg.step_make ((path_iff ht hs).mpr (atPath_of_walk_root hs hq.walk))
      (ht.not_file hs (Nat.le_succ _))⟩

theorem advances_hardLinked {oldPath : List Bytes} {o oi : Ptr}
    (hs' : (h.hardLinked dir n i).Sane) (hq : h.NewName env path n dir di)
    (hv : h.Victim env oldPath o oi d) (hi : d.dInode = some i)
    (hfile : (h.inodes i).isDir = false) :
    Advances h (h.hardLinked dir n i) (.link oldPath d.dName path n) := by
  have hd := hv.mem ht.sound.nodup
  have hdi : h.dInode? d.ptr = some i := (dInode?_of_mem ht.sound.nodup hd).trans hi
  have hinc : ∀ k, SameFile (h.inodes k) ((h.setInode i Inode.incNlink).inodes k) := fun k =>
    SameFile.setInode (F := Inode.incNlink) ⟨rfl, rfl⟩ (fun _ => ⟨rfl, rfl⟩) i
  have hkind : ∀ k, SameFile ((h.hardLinked dir n i).inodes k) (h.inodes k) := fun k =>
    (hinc k).symm
  obtain ⟨x, hp, -⟩ := ht.planted (h := h.hardLinked dir n i)
    (d := (liveDentry h.nextPtr n i).withCount 1) rfl rfl rfl hq.inode fun k _ => hkind k
  have ht' : (h.hardLinked dir n i).Tidy h.onePin := by
    rw [← update_onePin ht.nextPtr_ne_root]
    exact ht.hardLinked hq.inode hq.isDir hdi hfile
  have hg := hp.grows ht hs ht' hs' rfl
  refine ⟨_, _, presents_tree ht hs, presents_tree ht' hs',
    hg.step_link ?_ ((hkind i).2.trans hfile) ⟨d.ptr, ?_, (file_iff ht hs).mpr ⟨hdi, hfile⟩⟩⟩
  · exact (path_iff ht hs).mpr (atPath_of_walk_root hs hq.walk)
  · exact (path_iff ht hs).mpr
      (atPath_of_dLookup hs (atPath_of_walk_root hs hv.walk) hv.lookup hi)

theorem advances_linked {c : Control} {table : Table} (hs' : (h.linked dir di c table).Sane)
    (hl : h.Linkable env c dir di) (ha : h.AtPath path dir) :
    Advances h (h.linked dir di c table) (.make path c.name (linkMode c.mode).isDir) := by
  obtain ⟨x, hp, -⟩ := ht.planted_linked hl table
  have ht' : (h.linked dir di c table).Tidy h.onePin := by
    rw [← update_onePin ht.nextPtr_ne_root]
    exact ht.linked hl table
  have hg := hp.grows ht hs ht' hs' rfl
  rw [inodes_link, isDir_newInode] at hg
  exact ⟨_, _, presents_tree ht hs, presents_tree ht' hs',
    hg.step_make ((path_iff ht hs).mpr ha) (ht.not_file hs (Nat.le_succ _))⟩

/-- A leaf that is taken out. -/
theorem advances_pruned (ht' : g.Tidy pin') (hs' : g.Sane) (hd : (some dir, d) ∈ h.dcache.nodes)
    (h0 : h.dcache.kids d.ptr = 0) (hdi : h.dInode? dir = some di) (hi : d.dInode = some i)
    (hdcache : g.dcache = (h.pruned dir d.ptr).dcache)
    (hsame : ∀ k, SameFile (h.inodes k) (g.inodes k)) (hroot : g.root = h.root)
    (ha : h.AtPath path dir) :
    Advances h g (.remove path d.dName (h.inodes i).isDir) := by
  obtain ⟨x, hp, -⟩ := ht.planted_pruned hd h0 hdi hi hdcache hsame
  have hg := hp.grows ht' hs' ht hs hroot.symm
  exact ⟨_, _, presents_tree ht hs, presents_tree ht' hs',
    hg.step_remove ((path_iff ht hs).mpr ha)⟩

end Effects

/-! ## one dentry elsewhere -/

/-- A name that is not found is not there. -/
theorem Tidy.not_entry (ht : h.Tidy pin) (hs : h.Sane) (hmiss : h.dcache.dLookup p n = none)
    (k : Ptr) : ¬ (h.entries ht hs).entry p n k := by
  rintro ⟨d, hd, rfl, -⟩
  have hhash := (ht.exists_inode hd).1
  obtain ⟨⟨_, e⟩, he, heq⟩ := Dcache.exists_of_mem_bare hd
  cases heq
  have hnone := List.find?_eq_none.mp hmiss e ((Dcache.mem_subdirs_iff ht.sound.nodup).mpr he)
  have hhash' : e.dUnhashed = false := hhash
  exact hnone (by simp [hhash', Dentry.withCount])

section Renamed

variable {oi ni : Ptr} {d' : Dentry} {gone : Option Dentry} {rest : List (Option Ptr × Dentry)}
  {oldPath newPath : List Bytes} {oldName newName : Bytes} {r : Ptr}
  (hr : Renamed pin h h' p oi r ni i d d' gone rest)
  (hroute : h.Route env oldPath oldName newPath newName p oi r d d' gone)
  (ht : h.Tidy pin) (hs : h.Sane)

theorem Renamed.mem_bare (hr : Renamed pin h h' p oi r ni i d d' gone rest) :
    x ∈ h.dcache.bare ↔ x = Dcache.strip (some p, d) ∨
      (∃ e, gone = some e ∧ x = Dcache.strip (some r, e)) ∨ x ∈ rest := by
  rw [hr.before.mem_iff, List.mem_cons, List.mem_append]
  simp only [Option.mem_toList, Option.map_eq_some_iff, eq_comm (a := x)]

theorem Renamed.mem_bare_after (hr : Renamed pin h h' p oi r ni i d d' gone rest) :
    x ∈ h'.dcache.bare ↔ x = Dcache.strip (some r, d') ∨ x ∈ rest := by
  rw [hr.after.mem_iff, List.mem_cons]

include hr hroute in
/-- What has the new name is what is in the way. -/
theorem Renamed.target_iff :
    (h.entries ht hs).entry r newName k ↔ ∃ e, gone = some e ∧ e.ptr = k := by
  have htarget : ∀ e, gone = some e → (h.entries ht hs).entry r newName e.ptr := fun e he =>
    ⟨_, Dcache.mem_bare_of_mem (hr.target e he).1, hroute.target e he, rfl⟩
  constructor
  · intro hk
    cases hgone : gone with
    | none => exact absurd hk (ht.not_entry hs (hroute.free hgone) k)
    | some e => exact ⟨e, rfl, (h.entries ht hs).entry_unique (htarget e hgone) hk⟩
  · rintro ⟨e, he, rfl⟩
    exact htarget e he

include hr hroute in
/-- A rename moves one dentry. -/
theorem Renamed.moves (ht' : h'.Tidy pin') (hs' : h'.Sane) :
    Entries.Moves (h.entries ht hs) (h'.entries ht' hs') p oldName r newName d.ptr := by
  have hold : (some p, d.withCount 0) ∈ h.dcache.bare := hr.mem_bare.mpr (.inl rfl)
  have hmoved : (some r, d'.withCount 0) ∈ h'.dcache.bare := hr.mem_bare_after.mpr (.inl rfl)
  have hkind : ∀ j, (h'.inodes j).isDir = (h.inodes j).isDir := fun j => by
    rw [hr.inodes_eq]
    exact ((movedInodes_fades hs oi ni _ _).file j).2
  have hapart : ¬ (h.entries ht hs).entry r newName d.ptr := fun hentry => by
    obtain ⟨e, he, hptr⟩ := (hr.target_iff hroute ht hs).mp hentry
    exact (hr.target e he).2.1 hptr
  -- what stays is neither the dentry itself nor what is in the way
  have hrest : ∀ {y}, y ∈ rest → y.2.ptr ≠ d.ptr ∧
      ¬ (h.entries ht hs).entry r newName y.2.ptr := fun {y} hy => by
    have hne : y.2.ptr ≠ d.ptr := fun hptr => by
      have hnodup := ht'.sound.nodup
      rw [← Dcache.map_ptr_bare, (hr.after.map _).nodup_iff, List.map_cons, List.nodup_cons]
        at hnodup
      exact hnodup.1 (List.mem_map.mpr ⟨y, hy, hptr.trans hr.same.1.symm⟩)
    refine ⟨hne, fun ⟨c, hc, hname, hptr⟩ => hne ?_⟩
    cases ht.eq_of_ptr hc (hr.mem_bare.mpr (.inr (.inr hy))) hptr
    exact ((h'.entries ht' hs').entry_unique ⟨_, hr.mem_bare_after.mpr (.inr hy), hname, rfl⟩
      ⟨_, hmoved, hroute.dName', rfl⟩).trans hr.same.1
  refine ⟨hr.files_eq.2.1, ⟨_, hold, hroute.dName, rfl⟩, fun a l k => ?_, fun k j c => ?_, hapart,
    fun k hk l y ⟨c, hc, _⟩ => ?_⟩
  · constructor
    · rintro ⟨c, hc, rfl, rfl⟩
      rcases hr.mem_bare_after.mp hc with heq | hc
      · cases heq
        exact .inr ⟨rfl, hroute.dName', hr.same.1⟩
      · exact .inl ⟨⟨c, hr.mem_bare.mpr (.inr (.inr hc)), rfl, rfl⟩, hrest hc⟩
    · rintro (⟨⟨c, hc, rfl, rfl⟩, hne, hfree⟩ | ⟨rfl, rfl, rfl⟩)
      · rcases hr.mem_bare.mp hc with heq | ⟨e, he, heq⟩ | hc
        · cases heq
          exact absurd rfl hne
        · cases heq
          exact absurd ((hr.target_iff hroute ht hs).mpr ⟨e, he, rfl⟩) hfree
        · exact ⟨c, hr.mem_bare_after.mpr (.inr hc), rfl, rfl⟩
      · exact ⟨_, hmoved, hroute.dName', hr.same.1⟩
  · constructor
    · rintro ⟨y, hy, rfl, hj, rfl⟩
      rcases hr.mem_bare_after.mp hy with rfl | hy
      · have hptr : (Dcache.strip (some r, d')).2.ptr = d.ptr := hr.same.1
        rw [hptr]
        exact ⟨⟨_, hold, rfl, hr.same.2.1.symm.trans hj, (hkind j).symm⟩, hapart⟩
      · exact ⟨⟨y, hr.mem_bare.mpr (.inr (.inr hy)), rfl, hj, (hkind j).symm⟩, (hrest hy).2⟩
    · rintro ⟨⟨y, hy, rfl, hj, rfl⟩, hfree⟩
      rcases hr.mem_bare.mp hy with rfl | ⟨e, he, rfl⟩ | hy
      · exact ⟨_, hmoved, hr.same.1, hr.same.2.1.trans hj, hkind j⟩
      · exact absurd ((hr.target_iff hroute ht hs).mpr ⟨e, he, rfl⟩) hfree
      · exact ⟨y, hr.mem_bare_after.mpr (.inr hy), rfl, hj, hkind j⟩
  · -- what is in the way has no children
    obtain ⟨e, he, rfl⟩ := (hr.target_iff hroute ht hs).mp hk
    obtain ⟨⟨_, f⟩, hf, heq⟩ := Dcache.exists_of_mem_bare hc
    cases heq
    have hpos := Dcache.kids_pos_of_mem hf
    have hzero := (hr.target e he).2.2.1
    omega

include hr hroute ht hs in
theorem advances_renamed (ht' : h'.Tidy pin') (hs' : h'.Sane) :
    Advances h h' (.rename oldPath oldName newPath newName) := by
  have hm := hr.moves hroute ht hs ht' hs'
  have hat := atPath_of_walk_root hs hroute.old.walk
  have hnew := atPath_of_walk_root hs hroute.new
  have hdi : h.dInode? d.ptr = some i := (dInode?_of_mem ht.sound.nodup hr.old).trans hr.inode
  refine ⟨_, _, presents_tree ht hs, presents_tree ht' hs',
    hm.step_rename ((path_iff ht hs).mpr hat) ((path_iff ht hs).mpr hnew) ?_
      ((file_iff ht hs).mpr ⟨hdi, rfl⟩) fun k j c hk hj => ?_⟩
  · rintro ⟨tail, rfl⟩
    have hd := atPath_of_dLookup hs hat hroute.old.lookup hr.inode
    rw [hroute.dName] at hd
    exact (hd.at_or_below hs hnew).elim hroute.below.1 hroute.below.2
  · obtain ⟨e, he, rfl⟩ := (hr.target_iff hroute ht hs).mp hk
    obtain ⟨hem, -, -, te, hte, hne, hkind⟩ := hr.target e he
    obtain ⟨hji, rfl⟩ := (file_iff ht hs).mp hj
    obtain rfl := Option.some.inj (hji.symm.trans ((dInode?_of_mem ht.sound.nodup hem).trans hte))
    exact ⟨hne, hkind⟩

end Renamed

/-! ## calls -/

theorem AtPath.congr (hroot : h'.root = h.root) (hdcache : h'.dcache = h.dcache) :
    h'.AtPath path k ↔ h.AtPath path k := by
  constructor
  · exact AtPath.of_has hroot.symm (by rw [hroot, hdcache]; exact id) fun p d hd _ =>
      .of_mem (hdcache ▸ hd)
  · exact AtPath.of_has hroot (by rw [hdcache]; exact id) fun p d hd _ => .of_mem (hdcache ▸ hd)

/-- Only the root, the dentries and the kinds of inodes count. -/
theorem Presents.congr (hT : h.Presents T) (hroot : h'.root = h.root)
    (hdcache : h'.dcache = h.dcache) (hinodes : h'.inodes = h.inodes) : h'.Presents T := by
  intro path i b
  have hi : ∀ k, h'.dInode? k = h.dInode? k := fun k => by
    simp only [Host.dInode?, dentryOf?, hdcache]
  simp only [hT path i b, AtPath.congr hroot hdcache, hi, hinodes]

theorem Presents.noTrace (hT : h.Presents T) (hno : h.NoTrace h') : h'.Presents T := by
  obtain ⟨n, -, rfl⟩ := hno
  exact hT.congr rfl rfl rfl

/-- Then the tree has no name more. -/
theorem NoTrace.names_iff (ht : h.Tidy pin) (hs : h.Sane) (hno : h.NoTrace h') :
    h'.Names path b ↔ h.Names path b := by
  have hT := presents_tree ht hs
  rw [hT.names_iff, (hT.noTrace hno).names_iff]

/-- `h'` shows what the call makes of the tree that `h` shows, given what it
reports. -/
def Follows (h : Host) (op : Op) (err : Option Errno) (h' : Host) : Prop :=
  ∃ T T', h.Presents T ∧ h'.Presents T' ∧ op.Does err T T'

theorem Advances.follows {c : FileTree.Call Bytes} (ha : Advances h h' c)
    (hreq : op.request = some c) : h.Follows op none h' := by
  obtain ⟨T, T', hT, hT', hstep⟩ := ha
  refine ⟨T, T', hT, hT', ?_⟩
  unfold Op.Does
  rw [hreq]
  exact hstep

section Call

variable (ht : h.Tidy h.onePin) (hs : h.Sane)
include ht hs

theorem NoTrace.follows (hno : h.NoTrace h') (hfail : err ≠ none ∨ op.request = none) :
    h.Follows op err h' := by
  have hT := presents_tree ht hs
  refine ⟨_, _, hT, hT.noTrace hno, ?_⟩
  unfold Op.Does
  rcases hfail with herr | hreq
  · obtain ⟨e, rfl⟩ := Option.ne_none_iff_exists'.mp herr
    rfl
  · rw [hreq]
    cases err <;> rfl

theorem follows_link {oldPath : List Bytes} {oldName : Bytes} (hs' : h'.Sane)
    (hok : h.sysLink env oldPath oldName path n = .ok (h', err)) :
    h.Follows (.link oldPath oldName path n) err h' := by
  obtain hno | ⟨rfl, dir, di, o, oi, d, i, hq, hv, rfl, hi, hfile, rfl⟩ :=
    sysLink_cases ht.ready hok
  · refine hno.follows ht hs (.inl ?_)
    -- a link that succeeds adds a name
    rintro rfl
    obtain ⟨hyes, hnot, -⟩ := names_of_sysLink hs hok
    exact hnot false ((hno.names_iff ht hs).mp hyes)
  · exact (advances_hardLinked ht hs hs' hq hv hi hfile).follows rfl

theorem follows_rename {oldPath newPath : List Bytes} {oldName newName : Bytes}
    (hfiles : h.files = []) (hs' : h'.Sane)
    (hok : h.sysRename env oldPath oldName newPath newName = .ok (h', err)) :
    h.Follows (.rename oldPath oldName newPath newName) err h' := by
  have hT := presents_tree ht hs
  obtain hno | ⟨rfl, p, oi, q, ni, i, d, d', gone, rest, hr, hroute⟩ :=
    sysRename_cases ht (fun k _ => one_le_onePin k) hfiles hok
  · cases err with
    | some e => exact hno.follows ht hs (.inl (Option.some_ne_none e))
    | none =>
        obtain ⟨⟨p, q, d, e, i, hp, hq, hd, he, hi, hei⟩, rfl⟩ | ⟨-, ⟨b, hyes⟩, hnot, -⟩ :=
          names_of_sysRename hs hok
        · -- two names of one file
          refine ⟨_, _, hT, hT, Step.same (i := i) (b := (h'.inodes i).isDir) ?_ ?_⟩
          · exact (hT _ _ _).mpr ⟨d.ptr, atPath_of_dLookup hs (atPath_of_walk_root hs hp) hd hi,
              (dInode?_of_mem ht.sound.nodup
                (Dcache.mem_nodes_of_dLookup ht.sound.nodup hd)).trans hi, rfl⟩
          · exact (hT _ _ _).mpr ⟨e.ptr, atPath_of_dLookup hs (atPath_of_walk_root hs hq) he hei,
              (dInode?_of_mem ht.sound.nodup
                (Dcache.mem_nodes_of_dLookup ht.sound.nodup he)).trans hei, rfl⟩
        · exact absurd ((hno.names_iff ht hs).mpr hyes) (hnot b)
  · exact (advances_renamed hr hroute ht hs (Tidy.renamed hr ht) hs').follows rfl

theorem follows_call (hfiles : h.files = []) (hown : h.OwnedRemoval (.call env op))
    (hs' : h'.Sane) (hok : h.call env op = .ok (h', err)) : h.Follows op err h' := by
  cases op with
  | lookup path n => exact (sysLookup_cases ht.ready hok).follows ht hs (.inr rfl)
  | symlink path n => exact (sysSymlink_cases ht.ready hok).follows ht hs (.inr rfl)
  | create path n perm =>
      obtain ⟨hno, herr⟩ | ⟨rfl, dir, di, hq, -, rfl⟩ := sysCreate_cases ht.ready hok
      · exact hno.follows ht hs (.inl herr)
      · have hmade : (h.created env dir di n ⟨.reg, perm⟩).Sane := hs'
        exact (advances_created ht hs hmade hq (by simp)).follows rfl
  | mknod path n special perm =>
      obtain ⟨hno, herr⟩ | ⟨rfl, dir, di, hq, -, rfl⟩ := sysMknod_cases ht.ready hok
      · exact hno.follows ht hs (.inl herr)
      · have hdir : (⟨special.fmt, perm⟩ : Mode).isDir = false := by cases special <;> rfl
        have heq : h.created env dir di n ⟨special.fmt, perm⟩ =
            (h.made dir di n ⟨special.fmt, perm⟩).send env
              (h.createFrame dir di n ⟨special.fmt, perm⟩) := by
          simp only [created, hdir, Bool.false_eq_true, if_false]
        rw [← heq] at hs' ⊢
        have hadv := advances_created ht hs hs' hq (by cases special <;> simp [Special.fmt])
        rw [hdir] at hadv
        exact hadv.follows rfl
  | mkdir path n perm =>
      obtain ⟨hno, herr⟩ | ⟨rfl, dir, di, hq, -, rfl⟩ := sysMkdir_cases ht.ready hok
      · exact hno.follows ht hs (.inl herr)
      · have hmade : (h.created env dir di n ⟨.dir, perm &&& 0o1777⟩).Sane := hs'
        exact (advances_created ht hs hmade hq (by simp)).follows rfl
  | link oldPath oldName path n => exact follows_link ht hs hs' hok
  | rename oldPath oldName newPath newName => exact follows_rename ht hs hfiles hs' hok
  | unlink path n =>
      obtain ⟨hno, herr⟩ | ⟨rfl, dir, di, d, i, rfl, hv, hi, hfile, rfl⟩ :=
        sysUnlink_cases ht hown hok
      · exact hno.follows ht hs (.inl herr)
      · have hd := hv.mem ht.sound.nodup
        have h0 := ht.kids_eq_zero ((dInode?_of_mem ht.sound.nodup hd).trans hi) hfile
        have hadv := advances_pruned ht hs (ht.unlinked hd h0) hs' hd h0 hv.inode hi
          (dcache_send ..) sameFile_unlinked (root_send ..) (atPath_of_walk_root hs hv.walk)
        rw [hfile] at hadv
        exact hadv.follows rfl
  | rmdir path n =>
      obtain ⟨hno, herr⟩ | ⟨rfl, dir, di, d, i, rfl, hv, hi, hdir, h0, rfl⟩ :=
        sysRmdir_cases ht hown hok
      · exact hno.follows ht hs (.inl herr)
      · have hd := hv.mem ht.sound.nodup
        have hadv := advances_pruned ht hs (ht.rmdired hd h0 hi hdir) hs' hd h0 hv.inode hi
          (dcache_send ..) sameFile_rmdired (root_send ..) (atPath_of_walk_root hs hv.walk)
        rw [hdir] at hadv
        exact hadv.follows rfl

end Call

/-! ## runs -/

section Run

variable {ok : Host → Event → Prop}
  (hok : ∀ h e, ok h e → h.OwnedRemoval e ∧ h.FlagFits e) (hr : Run ok h)
include hok hr

/-- **What calls do to the tree**: in every state of a run with owned removals
only and flags that fit, a call that fails leaves the tree as it is, and one
that succeeds does to it what it asks for. -/
theorem call_refines_tree (hop : ok h (.call env op)) (hcall : h.call env op = .ok (h', err)) :
    h.Follows op err h' := by
  obtain ⟨ht, hfiles⟩ := hr.tidy hok
  have hs' : h'.Sane := hr.sane.step (e := .call env op) (congrArg (Except.map Prod.fst) hcall)
  exact follows_call ht hr.sane hfiles (hok _ _ hop).1 hs' hcall

/-- **What a create frame does to the tree**: it makes one file, in the directory
that the name of the parent leads the search to. -/
theorem create_refines_tree {newInode : Bool} {buf ip : Bytes}
    (hstep : h.step (.create newInode buf ip) = .ok h') :
    ∃ c path p, parseControl buf = .ok c ∧ h.resolveParent c.nameParent = some p ∧
      h.AtPath path p ∧ Advances h h' (.make path c.name (linkMode c.mode).isDir) := by
  obtain ⟨ht, -⟩ := hr.tidy hok
  have hs := hr.sane
  have hs' := hs.step hstep
  obtain ⟨c, hc, hcreate⟩ := bind_eq_ok hstep
  obtain ⟨dir, di, table, hl, hins, rfl⟩ := rdmaCreateParsed_cases ht.ready hcreate
  obtain ⟨path, ha⟩ := ht.exists_atPath hl.inode
  exact ⟨c, path, dir, hc, hl.parent, ha, advances_linked ht hs hs' hl ha⟩

/-- **What a remove frame does to the tree**: nothing, or it removes the name of
the dentry that its numbers resolve to. -/
theorem remove_refines_tree {buf : Bytes} (hop : ok h (.remove buf))
    (hstep : h.step (.remove buf) = .ok h') :
    ∃ c, parseControl buf = .ok c ∧ ((∃ T, h.Presents T ∧ h'.Presents T) ∨
      ∃ path d b, h.resolved? c = some d ∧ h.AtPath (path ++ [d.dName]) d.ptr ∧
        Advances h h' (.remove path d.dName b)) := by
  obtain ⟨ht, hfiles⟩ := hr.tidy hok
  have hs := hr.sane
  have hs' := hs.step hstep
  have he := effect_of_remove ht hfiles (hok _ _ hop).2 hstep
  have htidy := he.tidy ht
  cases he with
  | @released _ c hc =>
      exact ⟨c, hc, .inl ⟨_, presents_tree ht hs, (presents_tree ht hs).congr rfl rfl rfl⟩⟩
  | @forgotten _ c p dir i d hc hres h0 =>
      refine ⟨c, hc, .inr ?_⟩
      obtain ⟨path, ha⟩ := ht.exists_atPath hres.parent
      have hlive := ht.ready.live p d hres.mem
      obtain ⟨hdcache, -, -, -, hsame⟩ := @frame_forgotten h i d dir c p
      exact ⟨path, d, _, hres.found,
        .child ha hres.mem (positive_iff.mpr ⟨hlive.2.2.2, hlive.1⟩),
        advances_pruned ht hs htidy hs' hres.mem h0 hres.parent hres.inode hdcache hsame
          root_forgotten.1 ha⟩

end Run

end Host

/-! ## one file -/

/-- A host has made `x` and renames it to `y`. -/
theorem call_refines_tree_rename : ∃ A A' : Host,
    (Host.mounted 0 0o755 0 Table.initial).step makeX = .ok A ∧
    A.call (Env.server true) (.rename [] [120] [] [121]) = .ok (A', none) ∧
    A.Follows (.rename [] [120] [] [121]) none A' := by
  have hcall : ((Host.mounted 0 0o755 0 Table.initial).step makeX >>= fun h =>
      h.call (Env.server true) (.rename [] [120] [] [121])).toOption.map (fun r => r.2) =
        some none := by decide
  obtain ⟨⟨A', err⟩, hok, herr⟩ := exists_of_toOption_map hcall
  cases herr
  obtain ⟨A, hstep, hok⟩ := bind_eq_ok hok
  have hrun : Host.Run (fun h e => h.OwnedRemoval e ∧ h.FlagFits e) A :=
    .step (e := makeX) (.mount 0 0o755 0 Table.initial) ⟨trivial, trivial⟩ hstep
  exact ⟨A, A', hstep, hok,
    Host.call_refines_tree (fun _ _ h => h) hrun ⟨trivial, trivial⟩ hok⟩

/-- Its peer hears of `x`. -/
theorem create_refines_tree_x : ∃ B : Host,
    (Host.mounted 0 0o755 0 Table.initial).step announceX = .ok B ∧ ∃ c path p,
      parseControl (wjfsClientCreate 2 [120] 1 Host.rootName false) = .ok c ∧
      (Host.mounted 0 0o755 0 Table.initial).resolveParent c.nameParent = some p ∧
      (Host.mounted 0 0o755 0 Table.initial).AtPath path p ∧
      Host.Advances (Host.mounted 0 0o755 0 Table.initial) B
        (.make path c.name (Host.linkMode c.mode).isDir) := by
  have hval : ((Host.mounted 0 0o755 0 Table.initial).step announceX).toOption.map
      (fun _ => true) = some true := by decide
  obtain ⟨B, hstep, -⟩ := exists_of_toOption_map hval
  have hrun : Host.Run (fun h e => h.OwnedRemoval e ∧ h.FlagFits e)
      (Host.mounted 0 0o755 0 Table.initial) := .mount 0 0o755 0 Table.initial
  exact ⟨B, hstep, Host.create_refines_tree (fun _ _ h => h) hrun hstep⟩

/-- The frame that takes `x` back. -/
def withdrawX : Bytes := wjfsClientRemove 2 [120] 1 Host.rootName false

/-- And that it is gone. -/
theorem remove_refines_tree_x : ∃ B B' : Host,
    (Host.mounted 0 0o755 0 Table.initial).step announceX = .ok B ∧
    B.step (.remove withdrawX) = .ok B' ∧ ∃ c, parseControl withdrawX = .ok c ∧
      ((∃ T, B.Presents T ∧ B'.Presents T) ∨ ∃ path d b, B.resolved? c = some d ∧
        B.AtPath (path ++ [d.dName]) d.ptr ∧ Host.Advances B B' (.remove path d.dName b)) := by
  have hval : ((Host.mounted 0 0o755 0 Table.initial).step announceX).toOption.map
      (fun h => decide ((h.step (.remove withdrawX)).toOption.isSome = true ∧
        ∀ c ∈ (parseControl withdrawX).toOption, ∀ d ∈ h.resolved? c, ∀ i ∈ d.dInode,
          (c.mode ≠ 0 ↔ (h.inodes i).isDir = true))) = some true := by decide
  obtain ⟨B, hstep, hB⟩ := exists_of_toOption_map hval
  obtain ⟨hsome, hflag⟩ := of_decide_eq_true hB
  obtain ⟨B', hB'⟩ := Option.isSome_iff_exists.mp hsome
  have hok : B.step (.remove withdrawX) = .ok B' := Net.mem_toOption.mp hB'
  have hfits : B.FlagFits (.remove withdrawX) := fun c hc d i hd hi =>
    hflag c (Net.mem_toOption.mpr hc) d hd i hi
  have hrun : Host.Run (fun h e => h.OwnedRemoval e ∧ h.FlagFits e) B :=
    .step (e := announceX) (.mount 0 0o755 0 Table.initial) ⟨trivial, trivial⟩ hstep
  exact ⟨B, B', hstep, hok,
    Host.remove_refines_tree (fun _ _ h => h) hrun ⟨trivial, hfits⟩ hok⟩

end Wjfs
