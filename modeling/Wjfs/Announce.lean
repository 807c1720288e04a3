import Wjfs.Host.Open
import Wjfs.Orderly

/-!
# Wjfs.Announce

What an orderly host tells its peer, and what it does when it is told.

`Tells` is a call that makes or removes a file of the host's own: the frame it
sends is about that file and nothing else changes.  `Hears` is a frame of the
peer that makes or removes a link: it changes the links as the frame says and
leaves own files alone.
-/

namespace Wjfs

open Replica

/-! ## messages -/

/-- What the parser makes of a frame about a file. -/
def Row.control (f : Row) : Control where
  ino := f.id.1
  name := f.name
  inoParent := f.id.2
  nameParent := f.parent
  mode := string2int (modeFlag f.isDir)

/-- The frame for a message. -/
def encode : Msg Bytes (CInt × CInt) → Bytes
  | .add f => wjfsClientCreate f.id.1 f.name f.id.2 f.parent f.isDir
  | .del f => wjfsClientRemove f.id.1 f.name f.id.2 f.parent f.isDir

/-- A row that a frame carries whole. -/
structure Sendable (f : Row) : Prop where
  name : WellFormed f.name
  parent : f.parent = Host.rootName ∨ WellFormed f.parent
  ino : InRange f.id.1
  inoParent : InRange f.id.2

variable {f r : Row} {m : Msg Bytes (CInt × CInt)}

theorem take_encode_add : (encode (.add f)).take 2 = tagCR := rfl

theorem take_encode_del : (encode (.del f)).take 2 = tagRM := rfl

theorem take_encode_add_ne {tag : Bytes} (h : tagCR ≠ tag) : (encode (.add f)).take 2 ≠ tag := h

theorem take_encode_del_ne {tag : Bytes} (h : tagRM ≠ tag) : (encode (.del f)).take 2 ≠ tag := h

theorem Sendable.fitsRow_parent (hs : Sendable f) : FitsRow f.parent := by
  rcases hs.parent with heq | hw
  · rw [heq]
    decide
  · exact hw.fitsRow

theorem Sendable.parse (hs : Sendable m.file) :
    parseControl (encode m) = .ok (Row.control m.file) := by
  cases m with
  | add f => exact parseControl_create hs.name.fitsRow hs.fitsRow_parent hs.ino.msb hs.inoParent.msb
  | del f => exact parseControl_remove hs.name.fitsRow hs.fitsRow_parent hs.ino.msb hs.inoParent.msb

theorem Row.mode_control (f : Row) : (Row.control f).mode ≠ 0 ↔ f.isDir = true :=
  string2int_modeFlag f.isDir

theorem Row.isDir_linkMode (f : Row) : (Host.linkMode (Row.control f).mode).isDir = f.isDir := by
  unfold Host.linkMode
  cases hdir : f.isDir with
  | true => rw [if_pos ((Row.mode_control f).mpr hdir)]; rfl
  | false =>
      have hmode : ¬ (Row.control f).mode ≠ 0 := fun hm => by
        rw [Row.mode_control, hdir] at hm
        cases hm
      rw [if_neg hmode]
      rfl

namespace Host

variable {g h h' : Host} {mine mine' : Set Ptr} {env : Env} {path : List Bytes} {n : Bytes}
  {dir di i j k : Ptr} {d : Dentry} {x y : Option Ptr × Dentry} {mode : Mode}

/-- The host has done to its own files what the message says, and sent it. -/
structure Tells (mine : Set Ptr) (h : Host) (mine' : Set Ptr) (g : Host)
    (m : Msg Bytes (CInt × CInt)) : Prop where
  orderly : Orderly mine' g
  owns : g.Owns mine' = apply (h.Owns mine) m
  copies : g.Copies mine' = h.Copies mine
  outbox : g.outbox = h.outbox ++ [encode m]
  sendable : Sendable m.file

/-- A dentry has this number. -/
def Uses (h : Host) (m : CInt) : Prop :=
  ∃ x ∈ h.dcache.bare, ∃ i, x.2.dInode = some i ∧ h.number i = m

/-- What handling a frame takes: at most one entry of the table and at most one
number, which nothing else has got. -/
structure Costs (h g : Host) : Prop where
  files : g.files = h.files
  live : g.table.live.length ≤ h.table.live.length + 1
  drawn : (g.lastIno = h.lastIno ∧ ∀ m, g.Uses m → h.Uses m) ∨
    g.lastIno = h.lastIno + 1 ∧ ∀ m, g.Uses m → h.Uses m ∨ m = g.lastIno

/-- The host has done to its links what the message says. -/
structure Hears (mine : Set Ptr) (h g : Host) (m : Msg Bytes (CInt × CInt)) : Prop where
  orderly : Orderly mine g
  owns : g.Owns mine = h.Owns mine
  copies : g.Copies mine = apply (h.Copies mine) m
  outbox : g.outbox = h.outbox
  costs : Costs h g

/-- After a file was removed no dentry has its name. -/
theorem Tells.name_ne (ht : Tells mine h mine' g (.del f)) (ho : Orderly mine h)
    (hf : f ∈ h.Owns mine) (hx : x ∈ g.dcache.bare) : x.2.dName ≠ f.name := by
  obtain ⟨i, hi, hrow⟩ := hf
  refine ht.orderly.name_ne ht.sendable.name (fun r hr heq => ?_) hx
  rw [ht.owns, ht.copies] at hr
  rcases hr with ⟨⟨k, -, hk⟩, hne⟩ | ⟨k, hk, r', hr', e, -, -, rfl⟩
  · exact hne (ho.hasRow_unique_name hk hrow heq).2
  · obtain rfl := (ho.hasRow_unique_name hr' hrow heq).1
    exact hk hi

/-- The number that `new_inode` draws next is between 1 and 2³¹ - 1 and no
dentry's. -/
def FreshIno (h : Host) : Prop :=
  InRange (h.lastIno + 1) ∧
    ∀ x ∈ h.dcache.nodes, ∀ i ∈ x.2.dInode, h.number i ≠ h.lastIno + 1

instance (h : Host) : Decidable h.FreshIno := by unfold FreshIno; infer_instance

theorem freshIno_iff : h.FreshIno ↔ InRange (h.lastIno + 1) ∧ ¬ h.Uses (h.lastIno + 1) := by
  refine and_congr_right fun _ => ⟨?_, fun hno x hx i hi heq => hno ?_⟩
  · rintro hfresh ⟨x, hx, i, hi, heq⟩
    obtain ⟨z, hz, rfl⟩ := Dcache.exists_of_mem_bare hx
    exact hfresh z hz i hi heq
  · exact ⟨_, Dcache.mem_bare_of_mem hx, i, hi, heq⟩

theorem FreshIno.number_ne (hf : h.FreshIno) (hy : y ∈ h.dcache.bare) (hk : y.2.dInode = some k) :
    h.number k ≠ h.lastIno + 1 := fun heq => (freshIno_iff.mp hf).2 ⟨y, hy, k, hk, heq⟩

namespace Orderly

theorem row_lt (ho : Orderly mine h) (hf : h.HasRow k f) : k < h.nextPtr := by
  obtain ⟨p, d, x, j, hs, -⟩ := hf
  obtain ⟨z, hz, heq⟩ := Dcache.exists_of_mem_bare hs.mem
  have hi : z.2.dInode = some k := (congrArg (fun v => v.2.dInode) heq).trans hs.inode
  exact ho.tidy.ready.inode_lt z hz k hi

/-- What a call draws for the host's own use is no inode that was there. -/
theorem mem_union_Ico (ho : Orderly mine h) {m : Ptr} (hf : h.HasRow k f) :
    k ∈ mine ∪ Set.Ico h.nextPtr m ↔ k ∈ mine :=
  ⟨fun hk => hk.resolve_right fun hge => Nat.not_lt_of_le hge.1 (ho.row_lt hf), .inl⟩

/-- The row of a directory. -/
theorem parent_row (ho : Orderly mine h) (hx : x ∈ h.dcache.bare) (hi : x.2.dInode = some i)
    (hdir : (h.inodes i).isDir = true) : x.2.dName = rootName ∨
      WellFormed x.2.dName ∧
      ∃ r ∈ h.Owns mine ∪ h.Copies mine, r.isDir = true ∧ r.name = x.2.dName := by
  obtain ⟨q, d⟩ := x
  cases q with
  | none =>
      obtain ⟨y, hy, heq⟩ := Dcache.exists_of_mem_bare hx
      have hroot := ho.tidy.sound.top y hy (congrArg Prod.fst heq)
      have hptr : y.2.ptr = d.ptr := congrArg (fun z => z.2.ptr) heq
      exact .inl (ho.root _ hx (hptr.symm.trans hroot))
  | some p =>
      obtain ⟨x, l, j, hs⟩ := ho.exists_seat hx
      obtain rfl := Option.some.inj (hi.symm.trans hs.inode)
      have hrow : h.HasRow i (h.row d x i j) := ⟨p, d, x, j, hs, rfl⟩
      refine .inr ⟨ho.plain p d hx, ?_⟩
      rcases ho.mem_owns_or_copies hrow with hf | ⟨r, hr, hname, -, hrdir⟩
      · exact ⟨_, .inl hf, hdir, rfl⟩
      · exact ⟨r, .inr hr, hrdir.trans hdir, hname⟩

end Orderly

/-! ## nothing to tell -/

/-- Neither the host's own files nor its links have changed. -/
structure Unchanged (mine : Set Ptr) (h : Host) (mine' : Set Ptr) (g : Host) : Prop where
  orderly : Orderly mine' g
  owns : g.Owns mine' = h.Owns mine
  copies : g.Copies mine' = h.Copies mine

/-- The host did something that it need not tell its peer. -/
structure Quiet (mine : Set Ptr) (h : Host) (mine' : Set Ptr) (g : Host) : Prop
    extends Unchanged mine h mine' g where
  outbox : g.outbox = h.outbox

theorem hasRow_congr (hbare : g.dcache.bare = h.dcache.bare)
    (hino : ∀ i, SameFile (g.inodes i) (h.inodes i)) : g.HasRow k f ↔ h.HasRow k f := by
  constructor
  · rintro ⟨p, d, x, j, ⟨hd, hi, hx, hp, hj⟩, rfl⟩
    exact ⟨p, d, x, j, ⟨hbare ▸ hd, hi, hbare ▸ hx, hp, hj⟩, row_congr (hino k) (hino j)⟩
  · rintro ⟨p, d, x, j, ⟨hd, hi, hx, hp, hj⟩, rfl⟩
    exact ⟨p, d, x, j, ⟨hbare ▸ hd, hi, hbare ▸ hx, hp, hj⟩,
      (row_congr (hino k) (hino j)).symm⟩

namespace Orderly

/-- Counts, contents, open files, unused addresses and frames do not matter. -/
theorem unchanged (ho : Orderly mine h) (ht : g.Tidy g.onePin)
    (hbare : g.dcache.bare = h.dcache.bare) (hino : ∀ i, SameFile (g.inodes i) (h.inodes i))
    (htable : g.table = h.table) (hroot : g.root = h.root) (hnext : h.nextPtr ≤ g.nextPtr)
    (hopened : ∀ k ∈ g.files, k ∈ h.dcache.ptrs) :
    Unchanged mine h (mine ∪ Set.Ico h.nextPtr g.nextPtr) g := by
  have hnum : ∀ i, g.number i = h.number i := fun i => (hino i).1
  have hmine : ∀ {k f}, h.HasRow k f → (k ∈ mine ∪ Set.Ico h.nextPtr g.nextPtr ↔ k ∈ mine) :=
    ho.mem_union_Ico
  refine ⟨⟨ht, ?_, ?_, ?_, ?_, ?_, ?_, ?_, ?_, ?_, ?_, ?_⟩, ?_, ?_⟩
  · rw [hbare, hroot]
    exact ho.root
  · rw [hbare]
    exact ho.names
  · simp only [hbare, funext hnum]
    exact ho.numbers
  · simp only [hbare, hnum]
    exact ho.range
  · rw [hbare]
    exact ho.plain
  · rintro k (hk | hk)
    · exact Nat.lt_of_lt_of_le (ho.mine_lt k hk) hnext
    · exact hk.2
  · intro e he
    obtain ⟨k, hk, f, hf, hid⟩ := ho.entry e (htable ▸ he)
    exact ⟨k, mt (hmine hf).mp hk, f, (hasRow_congr hbare hino).mpr hf, hid⟩
  · intro k hk f hf
    have hf' := (hasRow_congr hbare hino).mp hf
    rw [htable]
    exact ho.link k (mt (hmine hf').mpr hk) f hf'
  · rw [htable]
    exact ho.distinct
  · rw [htable]
    exact ho.ids
  · intro k hk
    rw [← Dcache.map_ptr_bare, hbare, Dcache.map_ptr_bare]
    exact hopened k hk
  · ext f
    simp only [Owns, Set.mem_ofPred_eq, hasRow_congr hbare hino]
    exact exists_congr fun k => and_congr_left fun hf => hmine hf
  · ext f
    simp only [Copies, Set.mem_ofPred_eq, hasRow_congr hbare hino, htable]
    constructor
    · rintro ⟨k, hk, r, hr, hf⟩
      exact ⟨k, mt (hmine hr).mpr hk, r, hr, hf⟩
    · rintro ⟨k, hk, r, hr, hf⟩
      exact ⟨k, mt (hmine hr).mp hk, r, hr, hf⟩

/-- A call that fails. -/
theorem quiet_noTrace (ho : Orderly mine h) (hno : h.NoTrace g) :
    Quiet mine h (mine ∪ Set.Ico h.nextPtr g.nextPtr) g := by
  have ht := ho.tidy.noTrace hno
  obtain ⟨n, hn, rfl⟩ := hno
  exact ⟨ho.unchanged ht rfl (fun _ => ⟨rfl, rfl⟩) rfl rfl hn ho.opened, rfl⟩

/-- Another filesystem draws numbers. -/
theorem quiet_elsewhere (ho : Orderly mine h) (lastIno : CInt) :
    Quiet mine h (mine ∪ Set.Ico h.nextPtr h.nextPtr) { h with lastIno := lastIno } := by
  refine ⟨ho.unchanged (g := { h with lastIno := lastIno }) ?_ rfl (fun _ => ⟨rfl, rfl⟩) rfl rfl
    (Nat.le_refl _) ho.opened, rfl⟩
  exact ho.tidy.within ho.tidy.sound (Dcache.Within.refl _) rfl (Nat.le_refl _) ho.tidy.file_lt
    fun _ _ _ _ => ⟨rfl, rfl, rfl⟩

/-- `open`. -/
theorem quiet_sysOpen (ho : Orderly mine h) {err : Option Errno}
    (hok : h.sysOpen env path n = .ok (g, err)) :
    Quiet mine h (mine ∪ Set.Ico h.nextPtr g.nextPtr) g := by
  obtain hno | ⟨k, hk, rfl⟩ := sysOpen_cases ho.tidy.ready hok
  · exact ho.quiet_noTrace hno
  · refine ⟨ho.unchanged (ho.tidy.opened hk) Dcache.bare_dget (fun _ => ⟨rfl, rfl⟩) rfl rfl
      (Nat.le_refl _) ?_, rfl⟩
    intro j hj
    rcases List.mem_cons.mp hj with rfl | hj
    · exact hk
    · exact ho.opened j hj

/-- `close`. -/
theorem quiet_sysClose (ho : Orderly mine h) (k : Ptr) :
    Quiet mine h (mine ∪ Set.Ico h.nextPtr (h.sysClose k).nextPtr) (h.sysClose k) := by
  by_cases hk : k ∈ h.files
  · obtain ⟨ht, hbare⟩ := ho.tidy.closed (ho.opened k hk) (one_le_onePin k)
    unfold sysClose at ht hbare ⊢
    rw [if_pos hk] at ht hbare ⊢
    exact ⟨ho.unchanged ht hbare (fun _ => ⟨rfl, rfl⟩) rfl rfl (Nat.le_refl _) fun j hj =>
      ho.opened j (List.mem_of_mem_erase hj), rfl⟩
  · have heq : h.sysClose k = h := if_neg hk
    rw [heq]
    exact ⟨ho.unchanged ho.tidy rfl (fun _ => ⟨rfl, rfl⟩) rfl rfl (Nat.le_refl _) ho.opened, rfl⟩

/-- Contents are no part of the order. -/
theorem quiet_setInode (ho : Orderly mine h) (i : Ptr) {F : Inode → Inode}
    (hF : ∀ n, (F n).SameKind n) :
    Quiet mine h mine (h.setInode i F) := by
  have hsame : ∀ k, SameFile ((h.setInode i F).inodes k) (h.inodes k) := fun k =>
    (SameFile.setInode ⟨rfl, rfl⟩ (fun n => ⟨(hF n).2.2, (hF n).isDir⟩) i).symm
  have hquiet := ho.unchanged (g := h.setInode i F) (ho.tidy.setInode fun _ _ _ => hF _) rfl hsame
    rfl rfl (Nat.le_refl _) ho.opened
  rw [show (h.setInode i F).nextPtr = h.nextPtr from rfl, Set.Ico_self, Set.union_empty] at hquiet
  exact ⟨hquiet, rfl⟩

theorem quiet_refl (ho : Orderly mine h) : Quiet mine h mine h := ⟨⟨ho, rfl, rfl⟩, rfl⟩

/-- The frames that are under way are not part of the order. -/
theorem unchanged_outbox (ho : Orderly mine h) (q : List Bytes) :
    Unchanged mine h mine { h with outbox := q } := by
  have hsame := ho.unchanged (g := { h with outbox := q }) (ho.tidy.within ho.tidy.sound
    (Dcache.Within.refl _) rfl (Nat.le_refl _) ho.tidy.file_lt fun _ _ _ _ => ⟨rfl, rfl, rfl⟩)
    rfl (fun _ => ⟨rfl, rfl⟩) rfl rfl (Nat.le_refl _) ho.opened
  rwa [Set.Ico_self, Set.union_empty] at hsame

end Orderly

/-! ## own files -/

/-- The row of the file that a call makes. -/
def newRow (h : Host) (dir di : Ptr) (n : Bytes) (mode : Mode) : Row where
  name := n
  parent := (h.dName? dir).getD []
  isDir := mode.isDir
  id := (h.lastIno + 1, h.number di)

/-- The frame that the call sends. -/
theorem outbox_created (hconn : env.connects = true) : (h.created env dir di n mode).outbox =
    h.outbox ++ [encode (.add (h.newRow dir di n mode))] := by
  unfold created
  split <;> simp [send, hconn, setInode, made, madeIn, encode, newRow, createFrame, number]

namespace Orderly

/-- **A call that makes a file** tells the peer of it. -/
theorem tells_created (ho : Orderly mine h) (hq : h.NewName env path n dir di)
    (hz : mode.fmt ≠ .zero) (hn : WellFormed n) (hfree : ∀ x ∈ h.dcache.bare, x.2.dName ≠ n)
    (hfresh : h.FreshIno) (hconn : env.connects = true) :
    Tells mine h (mine ∪ Set.Ico h.nextPtr (h.created env dir di n mode).nextPtr)
      (h.created env dir di n mode) (.add (h.newRow dir di n mode)) := by
  obtain ⟨z, hz', hzi⟩ := Ready.exists_dentry hq.inode
  have hzm := Dcache.mem_nodes_of_node? hz'
  have hlt : di < h.nextPtr := ho.tidy.ready.inode_lt z hzm di hzi
  obtain ⟨x, hp, hname⟩ := ho.tidy.planted_created hq mode
  have hnew := ho.tidy.inodes_created hq mode
  have hnum : (h.created env dir di n mode).number (h.nextPtr + 1) = h.lastIno + 1 := by
    rw [number, hnew, iIno_newInode]
  obtain ⟨hroot, hfiles, htable, hnext⟩ := @frame_created h env dir di n mode
  have hrow : (h.created env dir di n mode).row
      ((liveDentry h.nextPtr n (h.nextPtr + 1)).withCount 0) x (h.nextPtr + 1) di =
      h.newRow dir di n mode := by
    have hdi : (h.created env dir di n mode).number di = h.number di := (sameFile_created hlt).1
    simp only [row, newRow, hnum, hdi, hname, hnew, isDir_newInode, Option.getD_some]
    rfl
  have htidy := ho.tidy.created_onePin hq hz
  have hmem : h.nextPtr + 1 ∈
      mine ∪ Set.Ico h.nextPtr (h.created env dir di n mode).nextPtr := by
    rw [hnext]
    exact .inr ⟨Nat.le_succ _, Nat.lt_succ_self _⟩
  refine ⟨?_, ?_, ?_, ?_, ?_⟩
  · refine ho.plant hp htidy hroot hfiles hn hfree (hnum ▸ hfresh.1)
      (fun y hy k hk => hnum ▸ hfresh.number_ne hy hk) (fun k f hf => ho.mem_union_Ico hf) ?_
      (.inl ⟨hmem, by rw [htable]⟩)
    intro k hk
    rcases hk with hk | hk
    · rw [hnext]
      exact Nat.lt_add_right 2 (ho.mine_lt k hk)
    · exact hk.2
  · rw [hp.owns_insert (fun k f hf => ho.mem_union_Ico hf) hmem, hrow]
    rfl
  · exact hp.copies_of_own (fun k f hf => ho.mem_union_Ico hf) hmem (by rw [htable])
  · exact outbox_created hconn
  · have hzb := Dcache.mem_bare_of_mem hzm
    have hpar : (h.newRow dir di n mode).parent = z.2.dName := by
      simp only [newRow, dName?, hz', Option.map_some, Option.getD_some]
    refine ⟨hn, ?_, hfresh.1, ho.range _ hzb di hzi⟩
    rw [Msg.file, hpar]
    exact (ho.parent_row hzb hzi hq.isDir).imp_right And.left

/-- What the host tells its peer when it has removed a file of its own. -/
theorem tells_pruned (ho : Orderly mine h) (hd : (some dir, d) ∈ h.dcache.nodes)
    (h0 : h.dcache.kids d.ptr = 0) (hdi : h.dInode? dir = some di) (hi : d.dInode = some i)
    (hmine : i ∈ mine) (hopen : d.ptr ∉ h.files) (ht : g.Tidy g.onePin)
    (hdcache : g.dcache = (h.pruned dir d.ptr).dcache) (hroot : g.root = h.root)
    (hfiles : g.files = h.files) (hnext : g.nextPtr = h.nextPtr) (htable : g.table = h.table)
    (hsame : ∀ k, SameFile (h.inodes k) (g.inodes k))
    (houtbox : g.outbox = h.outbox ++ [h.removeFrame dir di i d (h.inodes i).isDir]) :
    ∃ f, f ∈ h.Owns mine ∧ f.name = d.dName ∧
      Tells mine h (mine ∪ Set.Ico h.nextPtr g.nextPtr) g (.del f) := by
  rw [hnext, Set.Ico_self, Set.union_empty]
  obtain ⟨x, hp, hname⟩ := ho.tidy.planted_pruned hd h0 hdi hi hdcache hsame
  have howns : h.Owns mine = insert (h.row (d.withCount 0) x i di) (g.Owns mine) :=
    hp.owns_insert (fun _ _ _ => Iff.rfl) hmine
  have hnot : h.row (d.withCount 0) x i di ∉ g.Owns mine := fun ⟨k, _, hk⟩ =>
    hp.name_ne ho.names hk rfl
  refine ⟨h.row (d.withCount 0) x i di, by rw [howns]; exact Set.mem_insert .., rfl,
    ho.prune hp ht hroot hfiles hopen (Nat.le_of_eq hnext.symm) (.inl ⟨hmine, by rw [htable]⟩),
    ?_, ?_, ?_, ?_⟩
  · rw [howns]
    exact (Set.insert_sdiff_self_of_notMem hnot).symm
  · exact (hp.copies_of_own (fun _ _ _ => Iff.rfl) hmine (by rw [htable])).symm
  · rw [houtbox]
    simp only [encode, row, removeFrame, hname, Option.getD_some, number]
    rfl
  · have hx := hp.seat.parent
    obtain ⟨l, hl, hdir⟩ := ho.tidy.dirs dir d hd
    obtain rfl := Option.some.inj (hdi.symm.trans hl)
    exact ⟨ho.plain dir _ hp.seat.mem, (ho.parent_row hx hp.parentInode hdir).imp_right And.left,
      ho.range _ hp.seat.mem i hi, ho.range x hx di hp.parentInode⟩

/-- **A call that removes a file** of the host's own. -/
theorem tells_unlinked (ho : Orderly mine h) (hd : (some dir, d) ∈ h.dcache.nodes)
    (hdi : h.dInode? dir = some di) (hi : d.dInode = some i) (hfile : (h.inodes i).isDir = false)
    (hmine : i ∈ mine) (hopen : d.ptr ∉ h.files) (hconn : env.connects = true) :
    ∃ f, f ∈ h.Owns mine ∧ f.name = d.dName ∧
      Tells mine h (mine ∪ Set.Ico h.nextPtr (h.unlinked env dir di i d).nextPtr)
        (h.unlinked env dir di i d) (.del f) := by
  have h0 := ho.tidy.kids_eq_zero ((dInode?_of_mem ho.tidy.sound.nodup hd).trans hi) hfile
  have hroot : (h.unlinked env dir di i d).root = h.root := root_send ..
  refine ho.tells_pruned hd h0 hdi hi hmine hopen ?_ (dcache_send ..) hroot (files_send ..)
    (nextPtr_send ..) (table_send ..) sameFile_unlinked ?_
  · rw [onePin_congr hroot]
    exact ho.tidy.unlinked hd h0
  · rw [hfile]
    simp [unlinked, send, hconn, setInode, pruned, mapDcache]

/-- **A call that removes a directory** of the host's own. -/
theorem tells_rmdired (ho : Orderly mine h) (hd : (some dir, d) ∈ h.dcache.nodes)
    (hdi : h.dInode? dir = some di) (hi : d.dInode = some i) (hdir : (h.inodes i).isDir = true)
    (h0 : h.dcache.kids d.ptr = 0) (hmine : i ∈ mine) (hopen : d.ptr ∉ h.files)
    (hconn : env.connects = true) :
    ∃ f, f ∈ h.Owns mine ∧ f.name = d.dName ∧
      Tells mine h (mine ∪ Set.Ico h.nextPtr (h.rmdired env dir di i d).nextPtr)
        (h.rmdired env dir di i d) (.del f) := by
  have hroot : (h.rmdired env dir di i d).root = h.root := root_send ..
  refine ho.tells_pruned hd h0 hdi hi hmine hopen ?_ (dcache_send ..) hroot (files_send ..)
    (nextPtr_send ..) (table_send ..) sameFile_rmdired ?_
  · rw [onePin_congr hroot]
    exact ho.tidy.rmdired hd h0 hi hdir
  · rw [hdir]
    simp [rmdired, send, hconn, setInode, pruned, mapDcache]

end Orderly

/-! ## frames of the peer -/

namespace Orderly

/-- A create frame finds its place. -/
theorem linkable (ho : Orderly mine h)
    (ha : Addable rootName (h.Owns mine) (h.Copies mine) f) (hn : WellFormed f.name) :
    ∃ dir di, h.Linkable (.server true) (Row.control f) dir di ∧
      (h.inodes di).dead = false := by
  have hfree : ∀ x ∈ h.dcache.bare, x.2.dName ≠ f.name := fun x hx => ho.name_ne hn ha.name hx
  -- the dentry of the directory
  obtain ⟨x, hx, hname, i, hi, hdir⟩ : ∃ x ∈ h.dcache.nodes, x.2.dName = f.parent ∧
      ∃ i, x.2.dInode = some i ∧ (h.inodes i).isDir = true := by
    rcases ha.parent with hroot | ⟨r, hr, hrdir, hrname⟩
    · obtain ⟨i, hi, hdir⟩ := ho.tidy.root_dir
      obtain ⟨x, hx, hxi⟩ := Ready.exists_dentry hi
      have hxm := Dcache.mem_nodes_of_node? hx
      have hxr : x.2.ptr = h.root := Dcache.ptr_of_node? hx
      exact ⟨x, hxm, (ho.root _ (Dcache.mem_bare_of_mem hxm) hxr).trans hroot.symm, i, hxi, hdir⟩
    · obtain ⟨i, l, ⟨p, d, x, j, hs, rfl⟩, hname, -, hdir⟩ := exists_hasRow hr
      obtain ⟨y, hy, heq⟩ := Dcache.exists_of_mem_bare hs.mem
      have hyn : y.2.dName = d.dName := congrArg (fun v => v.2.dName) heq
      have hyi : y.2.dInode = d.dInode := congrArg (fun v => v.2.dInode) heq
      exact ⟨y, hy, hyn.trans (hname.symm.trans hrname), i, hyi.trans hs.inode,
        hdir.symm.trans hrdir⟩
  refine ⟨x.2.ptr, i, ⟨(congrArg h.resolveParent hname).symm.trans (ho.resolveParent hx), ?_,
    hdir, ?_, ?_, ?_, ?_, rfl⟩, (ho.tidy.ready.alive x hx i hi).1⟩
  · exact (dInode?_of_mem ho.tidy.sound.nodup hx).trans hi
  · simp [Env.server, hdir]
  · exact ho.dLookup_eq_none hfree
  · exact ⟨fun hnil => hn.isName (.inl hnil), hn.2.2.1, hn.2.2.2.1⟩
  · exact Nat.le_trans hn.2.1 (by decide)

/-- **A create frame** makes the link that it announces. -/
theorem hears_linked (ho : Orderly mine h) {table : Table} {ip : Bytes}
    (ha : Addable rootName (h.Owns mine) (h.Copies mine) f) (hn : WellFormed f.name)
    (hfresh : h.FreshIno) (hl : h.Linkable env (Row.control f) dir di)
    (hins : h.table.insert (h.linkEntry di (Row.control f) ip) = .ok table) :
    Hears mine h (h.linked dir di (Row.control f) table) (.add f) := by
  have hfree : ∀ x ∈ h.dcache.bare, x.2.dName ≠ f.name := fun x hx => ho.name_ne hn ha.name hx
  obtain ⟨z, hz, hzi⟩ := Ready.exists_dentry hl.inode
  have hlt : di < h.nextPtr :=
    ho.tidy.ready.inode_lt z (Dcache.mem_nodes_of_node? hz) di hzi
  obtain ⟨e₀, hperm⟩ := Table.live_insert (fun _ => rfl) hins
  have hold : ∀ k < h.nextPtr, (h.linked dir di (Row.control f) table).inodes k = h.inodes k :=
    fun k hk => inodes_linked (Nat.ne_of_lt (Nat.lt_succ_of_lt hk))
  obtain ⟨x, hp, hname⟩ := ho.tidy.planted_linked hl table
  have hnum : (h.linked dir di (Row.control f) table).number (h.nextPtr + 1) = h.lastIno + 1 := by
    rw [number, inodes_link, iIno_newInode]
  have hdi : (h.linked dir di (Row.control f) table).number di = h.number di := by
    rw [number, hold di hlt]
    rfl
  have hnot : h.nextPtr + 1 ∉ mine := fun hm =>
    Nat.not_succ_le_self _ (Nat.le_of_lt (ho.mine_lt _ hm))
  have hparent : x.2.dName = f.parent := by
    obtain ⟨y, hy, hyn, hyp⟩ := exists_of_resolveParent ho.tidy.sound.nodup hl.parent
    have hdir : h.dName? dir = some y.2.dName := by
      rw [dName?, dentryOf?, ← hyp, Dcache.node?_of_mem ho.tidy.sound.nodup hy]
      rfl
    exact (Option.some.inj (hname.symm.trans hdir)).trans hyn
  have htidy : (h.linked dir di (Row.control f) table).Tidy h.onePin := by
    rw [← update_onePin ho.tidy.nextPtr_ne_root]
    exact ho.tidy.linked hl table
  have hrows : ∀ k r, h.HasRow k r → r.id.1 ≠ h.lastIno + 1 := by
    rintro k r ⟨p, d, y, j, hs, rfl⟩
    exact hfresh.number_ne hs.mem hs.inode
  refine ⟨?_, ?_, ?_, rfl, rfl, ?_, .inr ⟨rfl, ?_⟩⟩
  · refine ho.plant hp htidy rfl rfl hn hfree (hnum ▸ hfresh.1)
      (fun y hy k hk => hnum ▸ hfresh.number_ne hy hk) (fun _ _ _ => Iff.rfl)
      (fun k hk => Nat.lt_add_right 2 (ho.mine_lt k hk)) (.inr ⟨hnot, _, hperm, hnum.symm,
        hdi.symm, fun e' he' => ?_⟩)
    -- an entry with the same remote numbers would be a copy of the same file
    obtain ⟨k, hk, r, hr, hid⟩ := ho.entry e' he'
    exact ha.id _ ⟨k, hk, r, hr, e', he', congrArg Prod.fst hid.symm, rfl⟩
  · exact hp.owns_of_link (fun _ _ _ => Iff.rfl) hnot
  · have hdir : ((h.linked dir di (Row.control f) table).inodes (h.nextPtr + 1)).isDir =
        f.isDir := by
      rw [inodes_link, isDir_newInode, Row.isDir_linkMode]
    refine (hp.copies_insert (fun _ _ _ => Iff.rfl) hnot hperm hnum.symm
      (fun k r hr => hnum ▸ hrows k r hr) fun e' he' heq => ?_).trans ?_
    · obtain ⟨k, -, r, hr, hid⟩ := ho.entry e' he'
      exact hrows k r hr ((congrArg Prod.fst hid).trans (heq.trans hnum))
    · exact congrArg (fun r => insert r (h.Copies mine)) (File.ext rfl hparent hdir rfl)
  · exact Nat.le_of_eq hperm.length_eq
  · rintro m ⟨y, hy, k, hk, rfl⟩
    rcases hp.mem_bare.mp hy with rfl | hy
    · obtain rfl := Option.some.inj (hp.inode.symm.trans hk)
      exact .inr hnum
    · exact .inl ⟨y, hy, k, hk, (hp.number_eq hy hk).symm⟩

/-- No other entry has the remote numbers of one that is in use. -/
theorem find?_rdmaMatch (ho : Orderly mine h) {e : Entry} (he : e ∈ h.table.live) :
    h.table.live.find? (Table.rdmaMatch e.rdmaIno e.rdmaParentIno) = some e := by
  refine find?_of_unique he (by simp [Table.rdmaMatch]) fun e' he' hmatch => ?_
  simp only [Table.rdmaMatch, Bool.and_eq_true, beq_iff_eq] at hmatch
  exact List.inj_on_of_nodup_map ho.ids he' he (Prod.ext hmatch.1 hmatch.2)

/-- Nothing lies in a directory whose name no row has for its parent. -/
theorem kids_eq_zero (ho : Orderly mine h) (hx : x ∈ h.dcache.bare)
    (hempty : ∀ r ∈ h.Owns mine ∪ h.Copies mine, r.parent ≠ x.2.dName) :
    h.dcache.kids x.2.ptr = 0 := by
  rw [Dcache.kids_eq_countP_bare, List.countP_eq_zero]
  rintro ⟨q, d⟩ hd hq
  obtain rfl : q = some x.2.ptr := by simpa using hq
  obtain ⟨y, i, j, hs⟩ := ho.exists_seat hd
  have hy : y = x := ho.eq_of_ptr hs.parent hx hs.parentPtr
  rcases ho.mem_owns_or_copies (f := h.row d y i j) ⟨_, d, y, j, hs, rfl⟩ with
    hf | ⟨r, hr, -, hparent, -⟩
  · exact hempty _ (.inl hf) (by rw [← hy]; rfl)
  · exact hempty r (.inr hr) (by rw [hparent, ← hy]; rfl)

/-- The frame for a link resolves to it. -/
theorem resolved?_of_seat (ho : Orderly mine h) (hs : h.Seat p (d.withCount 0) x i j)
    (hd : (some p, d) ∈ h.dcache.nodes) {e : Entry} (he : e ∈ h.table.live)
    (hloc : e.localIno = h.number i) (hid : f.id = (e.rdmaIno, e.rdmaParentIno)) :
    h.resolved? (Row.control f) = some d := by
  have hino : h.table.myIno (Row.control f).ino (Row.control f).inoParent = h.number i := by
    simp only [Row.control, hid, Table.myIno_eq, ho.find?_rdmaMatch he]
    exact hloc
  rw [resolved?, hino]
  exact ho.findDentryByIno hd hs.inode

/-- The frame that removes a link resolves to a dentry of its name. -/
theorem exists_resolved? (ho : Orderly mine h) (hf : f ∈ h.Copies mine) :
    ∃ d, h.resolved? (Row.control f) = some d ∧ h.dName? d.ptr = some f.name := by
  obtain ⟨i, -, r, ⟨p, b, x, j, hs, rfl⟩, e, he, hloc, rfl⟩ := hf
  obtain ⟨⟨q, d⟩, hd, heq⟩ := Dcache.exists_of_mem_bare hs.mem
  cases heq
  refine ⟨d, ho.resolved?_of_seat hs hd he hloc rfl, ?_⟩
  rw [dName?, dentryOf?, Dcache.node?_of_mem ho.tidy.sound.nodup hd]
  rfl

/-- **A remove frame** takes out the link that it means. -/
theorem hears_forgotten (ho : Orderly mine h)
    (hdel : Deletable (h.Owns mine) (h.Copies mine) f)
    (hopen : ∀ d, h.resolved? (Row.control f) = some d → d.ptr ∉ h.files) :
    ∃ g, h.rdmaRemoveParsed (Row.control f) = .ok g ∧ Hears mine h g (.del f) := by
  obtain ⟨i, hi, r, hr, e, he, hloc, hf⟩ := hdel.mem
  have hid : f.id = (e.rdmaIno, e.rdmaParentIno) := by rw [hf]
  obtain ⟨p, b, x, j, hs, rfl⟩ := hr
  obtain ⟨⟨q, d⟩, hd, heq⟩ := Dcache.exists_of_mem_bare hs.mem
  cases heq
  have hfound : h.resolved? (Row.control f) = some d := ho.resolved?_of_seat hs hd he hloc hid
  have hname : f.name = d.dName := by rw [hf]; rfl
  have hdir : f.isDir = (h.inodes i).isDir := by rw [hf]; rfl
  have h0 : h.dcache.kids d.ptr = 0 := by
    cases hisdir : (h.inodes i).isDir with
    | false =>
        exact ho.tidy.kids_eq_zero
          ((dInode?_of_mem ho.tidy.sound.nodup hd).trans hs.inode) hisdir
    | true =>
        exact ho.kids_eq_zero hs.mem fun r hr => hname ▸ hdel.empty (hdir.trans hisdir) r hr
  obtain ⟨hnone, -⟩ | ⟨q, l, d', i', hres, hrem⟩ := rdmaRemoveParsed_eq ho.tidy (Row.control f)
  · rw [hfound] at hnone
    cases hnone
  obtain rfl := Option.some.inj (hfound.symm.trans hres.found)
  obtain rfl := Option.some.inj (hs.inode.symm.trans hres.inode)
  have hgone : h.removed (Row.control f) l d i = h.forgotten (Row.control f) q l d i := by
    rw [removed_eq ho.tidy hres h0 (hopen d hfound), forgotten]
    simp only [Row.mode_control, hdir]
  obtain ⟨hdcache, htable, hnext, houtbox, hsame⟩ :=
    @frame_forgotten h i d l (Row.control f) q
  obtain ⟨y, hp, hparent⟩ :=
    ho.tidy.planted_pruned hres.mem h0 hres.parent hs.inode hdcache hsame
  have hlive : h.table.live.Perm (e :: (h.forgotten (Row.control f) q l d i).table.live) := by
    rw [htable]
    refine Table.live_release ?_
    simp only [Row.control, hid]
    exact ho.find?_rdmaMatch he
  have hrow : h.row (d.withCount 0) x i j = h.row (d.withCount 0) y i l :=
    (ho.hasRow_unique ⟨p, _, x, j, hs, rfl⟩ ⟨q, _, y, l, hp.seat, rfl⟩ rfl).2
  have hcopies : h.Copies mine =
      insert f ((h.forgotten (Row.control f) q l d i).Copies mine) := by
    have hcopy : { h.row (d.withCount 0) y i l with id := (e.rdmaIno, e.rdmaParentIno) } = f := by
      rw [← hrow, hf]
    refine (hp.copies_insert (fun _ _ _ => Iff.rfl) hi hlive hloc
      (fun k r hr => hp.number_ne ho.numbers hr) fun e' he' heq => ?_).trans
      (congrArg (fun r => insert r _) hcopy)
    have hdistinct := ho.distinct
    rw [(hlive.map _).nodup_iff, List.map_cons, List.nodup_cons] at hdistinct
    exact hdistinct.1 (List.mem_map.mpr ⟨e', he', heq.trans hloc.symm⟩)
  have hnot : f ∉ (h.forgotten (Row.control f) q l d i).Copies mine := by
    rintro ⟨k, -, r, hr, e', -, -, heq⟩
    refine hp.name_ne ho.names hr ?_
    rw [heq] at hname
    exact hname
  have hroot := @root_forgotten h (Row.control f) q l i d
  refine ⟨_, hrem.trans (congrArg Except.ok hgone), ?_, ?_, ?_, houtbox, hroot.2, ?_,
    .inl ⟨?_, ?_⟩⟩
  · refine ho.prune hp ?_ hroot.1 hroot.2 (hopen d hfound) (Nat.le_of_eq hnext.symm)
      (.inr ⟨hi, e, hlive, hloc⟩)
    have hone : (h.forgotten (Row.control f) q l d i).onePin = h.onePin := by
      unfold onePin
      rw [hroot.1]
    rw [hone]
    exact ho.tidy.forgotten hres h0
  · exact (hp.owns_of_link (fun _ _ _ => Iff.rfl) hi).symm
  · rw [hcopies]
    exact (Set.insert_sdiff_self_of_notMem hnot).symm
  · have hlen := hlive.length_eq
    rw [List.length_cons] at hlen
    omega
  · unfold forgotten
    split <;> rfl
  · rintro m ⟨y, hy, k, hk, rfl⟩
    exact ⟨y, hp.mem_bare.mpr (.inr hy), k, hk, hp.number_eq hy hk⟩

end Orderly

end Host

end Wjfs
