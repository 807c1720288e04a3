import Wjfs.Converge
import Wjfs.ReadReply
import Wjfs.RemoteRead

/-!
# Wjfs.Routing

Where the requests of a link go.

A link knows its file only by the numbers that its entry of the table has.  In
every state of a safe run these numbers are those of a file of the peer, with
the name and the directory of the link, unless the peer has removed it and the
frame that says so is under way.  A write through a link then changes that file
and nothing else, and a read brings back what is in it.
-/

namespace Wjfs

open Replica

namespace Host

variable {h g : Host} {mine : Set Ptr} {link p i j k : Ptr} {d : Dentry}
  {x : Option Ptr × Dentry} {f r : Row}

/-- The requests of a link are about the file that `f` describes. -/
def Refers (h : Host) (link : Ptr) (f : Row) : Prop :=
  ∃ ino inoParent i, h.frameFields link = .ok (ino, f.name, inoParent, f.parent) ∧
    h.table.remote ino inoParent = f.id ∧ h.dInode? link = some i ∧
    (h.inodes i).isDir = f.isDir

/-- The host made the file that `f` describes, and finds it by its number. -/
structure Stores (h : Host) (d : Dentry) (f : Row) : Prop where
  found : h.findDentryByIno h.root f.id.1 = some d
  fields : h.frameFields d.ptr = .ok (f.id.1, f.name, f.id.2, f.parent)
  mine : h.isMyFile d.ptr = .ok true
  kind : ∃ i, d.dInode = some i ∧ (h.inodes i).isDir = f.isDir

namespace Orderly

/-- The four fields that the frames about a dentry have. -/
theorem frameFields_eq (ho : Orderly mine h) (hs : h.Seat p (d.withCount 0) x i j)
    (hd : (some p, d) ∈ h.dcache.nodes) :
    h.frameFields d.ptr = .ok (h.number i, d.dName, h.number j, x.2.dName) := by
  have hn := ho.tidy.sound.nodup
  obtain ⟨z, hz, rfl⟩ := Dcache.exists_of_mem_bare hs.parent
  have hzp : z.2.ptr = p := hs.parentPtr
  have hzi : z.2.dInode = some j := hs.parentInode
  have hfields : h.frameFields d.ptr = .ok (h.number i, d.dName, h.number j, z.2.dName) :=
    frameFields_of_nodes (Dcache.node?_of_mem hn hd) (hzp ▸ Dcache.node?_of_mem hn hz) hs.inode hzi
  exact hfields

/-- The requests of a link have the numbers of its entry. -/
theorem refers_of_seat (ho : Orderly mine h) (hs : h.Seat p (d.withCount 0) x i j)
    (hd : (some p, d) ∈ h.dcache.nodes) {e : Entry} (he : e ∈ h.table.live)
    (hloc : e.localIno = h.number i) :
    h.Refers d.ptr { h.row d x i j with id := (e.rdmaIno, e.rdmaParentIno) } := by
  have hrow : h.HasRow i (h.row (d.withCount 0) x i j) := ⟨p, _, x, j, hs, rfl⟩
  obtain ⟨k, -, r, hr, hid⟩ := ho.entry e he
  obtain ⟨-, rfl⟩ := ho.hasRow_unique hr hrow ((congrArg Prod.fst hid).trans hloc)
  refine ⟨h.number i, h.number j, i, ho.frameFields_eq hs hd, ?_,
    (dInode?_of_mem ho.tidy.sound.nodup hd).trans hs.inode, rfl⟩
  have hfind : h.table.live.find? (Table.localMatch (h.number i) (h.number j)) = some e := by
    refine find?_of_unique he ?_ fun e' he' hmatch => ?_
    · have hpar : e.localParentIno = h.number j := (congrArg Prod.snd hid).symm
      simp only [Table.localMatch, Bool.and_eq_true, beq_iff_eq]
      exact ⟨hloc, hpar⟩
    · simp only [Table.localMatch, Bool.and_eq_true, beq_iff_eq] at hmatch
      exact List.inj_on_of_nodup_map ho.distinct he' he (hmatch.1.trans hloc.symm)
  rw [Table.remote_eq, hfind]
  rfl

theorem exists_refers (ho : Orderly mine h) (hlink : h.isMyFile link = .ok false) :
    ∃ f ∈ h.Copies mine, h.Refers link f := by
  obtain ⟨p, d, x, i, j, hd, rfl, hs, hi, e, he, hloc⟩ := ho.exists_seat_of_link hlink
  exact ⟨_, ⟨i, hi, _, ⟨p, _, x, j, hs, rfl⟩, e, he, hloc, rfl⟩, ho.refers_of_seat hs hd he hloc⟩

theorem exists_link (ho : Orderly mine h) (hf : f ∈ h.Copies mine) :
    ∃ link, h.isMyFile link = .ok false ∧ h.Refers link f := by
  obtain ⟨i, hi, r, ⟨p, b, x, j, hs, rfl⟩, e, he, hloc, rfl⟩ := hf
  obtain ⟨⟨q, d⟩, hd, heq⟩ := Dcache.exists_of_mem_bare hs.mem
  cases heq
  have hnot : h.table.isMyFile (h.number i) = false := by
    cases hmy : h.table.isMyFile (h.number i) with
    | false => rfl
    | true => exact absurd ((ho.isMyFile_iff hd hs.inode).mp hmy) hi
  exact ⟨d.ptr, (ho.isMyFile_eq hd hs.inode).trans (congrArg Except.ok hnot),
    ho.refers_of_seat hs hd he hloc⟩

theorem stores_of_seat (ho : Orderly mine h) (hs : h.Seat p (d.withCount 0) x i j)
    (hd : (some p, d) ∈ h.dcache.nodes) (hi : i ∈ mine) : h.Stores d (h.row d x i j) := by
  refine ⟨ho.findDentryByIno hd hs.inode, ho.frameFields_eq hs hd, ?_, i, hs.inode, rfl⟩
  rw [ho.isMyFile_eq hd hs.inode, (ho.isMyFile_iff hd hs.inode).mpr hi]

/-- What a host owns it finds. -/
theorem exists_stores (ho : Orderly mine h) (hf : f ∈ h.Owns mine) : ∃ d, h.Stores d f := by
  obtain ⟨i, hi, p, b, x, j, hs, rfl⟩ := hf
  obtain ⟨⟨q, d⟩, hd, heq⟩ := Dcache.exists_of_mem_bare hs.mem
  cases heq
  exact ⟨d, ho.stores_of_seat hs hd hi⟩

/-- What it finds among its own files has a row. -/
theorem seat_of_stores (ho : Orderly mine h) (hf : h.Stores d f) : ∃ p x i j,
    h.Seat p (d.withCount 0) x i j ∧ (some p, d) ∈ h.dcache.nodes ∧ i ∈ mine ∧
      f = h.row d x i j := by
  have hfound := hf.found
  rw [Host.findDentryByIno, findSubdirs_eq] at hfound
  obtain ⟨p, hd⟩ := ho.tidy.mem_visit_iff.mp (List.mem_of_find?_eq_some hfound)
  obtain ⟨x, i, j, hs⟩ := ho.exists_seat (Dcache.mem_bare_of_mem hd)
  obtain ⟨l, hl, hkind⟩ := hf.kind
  obtain rfl := Option.some.inj (hl.symm.trans hs.inode)
  have hmy := hf.mine
  rw [ho.isMyFile_eq hd hl, Except.ok.injEq, ho.isMyFile_iff hd hl] at hmy
  have hfields := (ho.frameFields_eq hs hd).symm.trans hf.fields
  simp only [Except.ok.injEq, Prod.mk.injEq] at hfields
  obtain ⟨hino, hname, hinoParent, hparent⟩ := hfields
  exact ⟨p, x, l, j, hs, hd, hmy, (File.ext hname hparent hkind (Prod.ext hino hinoParent)).symm⟩

theorem mem_owns_of_stores (ho : Orderly mine h) (hf : h.Stores d f) : f ∈ h.Owns mine := by
  obtain ⟨p, x, i, j, hs, -, hi, rfl⟩ := ho.seat_of_stores hf
  exact ⟨i, hi, p, _, x, j, hs, rfl⟩

/-- What is in a file does not matter for where it is found. -/
theorem stores_setInode (ho : Orderly mine h) (hf : h.Stores d f) (k : Ptr) {F : Inode → Inode}
    (hF : ∀ n, (F n).SameKind n) : (h.setInode k F).Stores d f := by
  obtain ⟨p, x, i, j, hs, hd, hi, rfl⟩ := ho.seat_of_stores hf
  have hsame : ∀ l, SameFile ((h.setInode k F).inodes l) (h.inodes l) := fun l =>
    (SameFile.setInode ⟨rfl, rfl⟩ (fun n => ⟨(hF n).2.2, (hF n).isDir⟩) k).symm
  have hstores := (ho.quiet_setInode k hF).orderly.stores_of_seat (d := d) (x := x) (j := j)
    ⟨hs.mem, hs.inode, hs.parent, hs.parentPtr, hs.parentInode⟩ hd hi
  rwa [row_congr (hsame i) (hsame j)] at hstores

/-- A file of the host's own can be put into a frame. -/
theorem sendable_of_owns (ho : Orderly mine h) (hf : f ∈ h.Owns mine) : Sendable f := by
  obtain ⟨i, -, p, b, x, j, hs, rfl⟩ := hf
  obtain ⟨⟨q, d⟩, hd, heq⟩ := Dcache.exists_of_mem_bare hs.mem
  cases heq
  obtain ⟨z, hz, rfl⟩ := Dcache.exists_of_mem_bare hs.parent
  obtain ⟨l, hl, hdir⟩ := ho.tidy.dirs p d hd
  have hzp : z.2.ptr = p := hs.parentPtr
  have hj : h.dInode? p = some j :=
    hzp ▸ (dInode?_of_mem ho.tidy.sound.nodup hz).trans hs.parentInode
  obtain rfl := Option.some.inj (hj.symm.trans hl)
  exact ⟨ho.plain p _ hs.mem, (ho.parent_row hs.parent hs.parentInode hdir).imp_right And.left,
    ho.range _ hs.mem i hs.inode, ho.range _ hs.parent j hs.parentInode⟩

theorem ptr_eq_of_dName? (ho : Orderly mine h) {n : Bytes} (hi : h.dName? i = some n)
    (hj : h.dName? j = some n) : i = j := by
  obtain ⟨x, hx, hxn⟩ := Option.map_eq_some_iff.mp hi
  obtain ⟨y, hy, hyn⟩ := Option.map_eq_some_iff.mp hj
  have heq := ho.eq_of_name (Dcache.mem_bare_of_mem (Dcache.mem_nodes_of_node? hx))
    (Dcache.mem_bare_of_mem (Dcache.mem_nodes_of_node? hy)) (hxn.trans hyn.symm)
  have hptr : x.2.ptr = y.2.ptr := congrArg (fun v => v.2.ptr) heq
  exact (Dcache.ptr_of_node? hx).symm.trans (hptr.trans (Dcache.ptr_of_node? hy))

end Orderly

theorem dName?_of_frameFields {ino inoParent : CInt} {name nameParent : Bytes}
    (hf : h.frameFields k = .ok (ino, name, inoParent, nameParent)) : h.dName? k = some name := by
  unfold frameFields at hf
  split at hf
  · next hname _ _ =>
      simp only [Except.ok.injEq, Prod.mk.injEq] at hf
      rw [hname, hf.2.1]
  · cases hf

end Host

namespace Net

variable {lastIno : Bool → CInt} {perm : Bool → BitVec 12} {nextPtr : Bool → Ptr}
  {table : Bool → Table} {N : Net} {s : Bool} {link : Ptr}

/-- The file `f` in the root that a fresh host makes. -/
def rowF : Row := ⟨[102], Host.rootName, false, (2, 1)⟩

/-- One host has made the file `f`, which is empty, and the other has a link to
it. -/
structure Linked (N : Net) (d : Dentry) : Prop where
  run : Run Safe pair N
  settled : N.Settled
  outbox : (N false).host.outbox = []
  link : (N false).host.isMyFile 2 = .ok false
  path : (N false).host.AtPath [[102]] 2
  refers : (N false).host.Refers 2 rowF
  stores : (N true).host.Stores d rowF
  inode : d.dInode = some 3
  empty : ((N true).host.inodes 3).iSize = 0

theorem exists_linked : ∃ N d, shared (.create [] [102] 0o644) = .ok N ∧ Linked N d := by
  have hval : (shared (.create [] [102] 0o644)).toOption.map (fun N => decide
      (N.Settled ∧ (N false).host.outbox = [] ∧ (N false).host.isMyFile 2 = .ok false ∧
      (N false).host.frameFields 2 = .ok (2, [102], 1, Host.rootName) ∧
      (N false).host.table.remote 2 1 = (2, 1) ∧ (N false).host.dInode? 2 = some 3 ∧
      ((N false).host.inodes 3).isDir = false ∧ (N false).host.root ∈ (N false).host.dcache.ptrs ∧
      ((N false).host.dcache.dLookup (N false).host.root [102]).map (fun d => (d.ptr, d.dInode)) =
        some (2, some 3) ∧
      ((N true).host.findDentryByIno (N true).host.root 2).map (fun d => (d.ptr, d.dInode)) =
        some (2, some 3) ∧
      (N true).host.frameFields 2 = .ok (2, [102], 1, Host.rootName) ∧
      (N true).host.isMyFile 2 = .ok true ∧ ((N true).host.inodes 3).isDir = false ∧
      ((N true).host.inodes 3).iSize = 0)) = some true := by
    decide +kernel
  obtain ⟨N, hN, hfacts⟩ := exists_of_toOption_map hval
  obtain ⟨hq, hbox, hlink, hfields, hremote, hino, hdir, hroot, hlook, hfind, hfields', hmine,
    hdir',
    hsize⟩ := of_decide_eq_true hfacts
  have hr : Run Safe pair N := run_shared rfl (by decide) (by decide) hN
  obtain ⟨S, hS⟩ := hr.refines (by decide)
  obtain ⟨e, he, heq⟩ := Option.map_eq_some_iff.mp hlook
  obtain ⟨d, hd, hdeq⟩ := Option.map_eq_some_iff.mp hfind
  have hptr : d.ptr = 2 := congrArg Prod.fst hdeq
  have hpath := Host.atPath_of_dLookup (hS.shows false).sane (.root hroot) he
    (congrArg Prod.snd heq)
  have heptr : e.ptr = 2 := congrArg Prod.fst heq
  rw [heptr] at hpath
  exact ⟨N, d, hN, hr, hq, hbox, hlink, hpath, ⟨2, 1, 3, hfields, hremote, hino, hdir⟩,
    ⟨hd, hptr ▸ hfields', hptr ▸ hmine, 3, congrArg Prod.snd hdeq, hdir'⟩, congrArg Prod.snd hdeq,
    hsize⟩

/-- **A link stands for a file**: in every state of a safe run, with any frames
under way, the numbers that a link has for its requests are those of a file
that the peer made, of the same name in a directory of the same name, and the
peer finds it by them; or the peer has removed it, and the frame that says so
is under way. -/
theorem link_target (hino : ∀ s, InRange (lastIno s + 1))
    (hr : Run Safe (mounted lastIno perm nextPtr table) N)
    (hlink : (N s).host.isMyFile link = .ok false) : ∃ f : Row, (N s).host.Refers link f ∧
      ((∃ d, (N (!s)).host.Stores d f) ∨ N.Incoming s tagRM (Row.control f)) := by
  obtain ⟨S, hS⟩ := hr.refines hino
  obtain ⟨f, hf, hrefers⟩ := (hS.shows s).orderly.exists_refers hlink
  refine ⟨f, hrefers, ?_⟩
  by_cases hdel : .del f ∈ S.queue (!s)
  · exact .inr (hS.incoming_del hdel)
  · rw [(hS.shows s).copies] at hf
    have hown := hS.inv.mem_own_of_copies hf hdel
    rw [← (hS.shows (!s)).owns] at hown
    exact .inl ((hS.shows (!s)).orderly.exists_stores hown)

/-- The link `f` stands for the file that the peer made. -/
theorem link_target_shared : ∃ N, shared (.create [] [102] 0o644) = .ok N ∧
    ∃ f : Row, (N false).host.Refers 2 f ∧
      ((∃ d, (N true).host.Stores d f) ∨ N.Incoming false tagRM (Row.control f)) := by
  obtain ⟨N, d, hN, hl⟩ := exists_linked
  exact ⟨N, hN, link_target (by decide) hl.run hl.link⟩

/-- **No file is lost**: in every state of a safe run every file that a host
made has a link on the other one, or the frame that makes one is under way. -/
theorem file_has_link {d : Dentry} {f : Row} (hino : ∀ s, InRange (lastIno s + 1))
    (hr : Run Safe (mounted lastIno perm nextPtr table) N) (hf : (N (!s)).host.Stores d f) :
    (∃ link, (N s).host.isMyFile link = .ok false ∧ (N s).host.Refers link f) ∨
      N.Incoming s tagCR (Row.control f) := by
  obtain ⟨S, hS⟩ := hr.refines hino
  have hown := (hS.shows (!s)).orderly.mem_owns_of_stores hf
  rw [(hS.shows (!s)).owns] at hown
  rcases hS.inv.mem_copies_or_add hown with hcopy | hadd
  · rw [← (hS.shows s).copies] at hcopy
    exact .inl ((hS.shows s).orderly.exists_link hcopy)
  · exact .inr (hS.incoming_add hadd)

/-- The file `f` has its link. -/
theorem file_has_link_shared : ∃ N, shared (.create [] [102] 0o644) = .ok N ∧
    ((∃ link, (N false).host.isMyFile link = .ok false ∧ (N false).host.Refers link rowF) ∨
      N.Incoming false tagCR (Row.control rowF)) := by
  obtain ⟨N, d, hN, hl⟩ := exists_linked
  exact ⟨N, hN, file_has_link (by decide) hl.run hl.stores⟩

/-- The file of a link, when no frame is under way. -/
theorem Refines.exists_stores_at {S : State Bytes (CInt × CInt)} {path : List Bytes}
    (hS : N.Refines S) (hq : N.Settled) (hlink : (N s).host.isMyFile link = .ok false)
    (ha : (N s).host.AtPath path link) :
    ∃ (f : Row) (d : Dentry), (N s).host.Refers link f ∧ (N (!s)).host.Stores d f ∧
      (N (!s)).host.AtPath path d.ptr := by
  have ho := (hS.shows s).orderly
  have hpeer := (hS.shows (!s)).orderly
  obtain ⟨f, hf, hrefers⟩ := ho.exists_refers hlink
  have hown : f ∈ (N (!s)).host.Owns (N (!s)).mine := by
    rw [(hS.shows s).copies] at hf
    rw [(hS.shows (!s)).owns]
    exact hS.inv.mem_own_of_copies hf (by rw [hS.queue_eq_nil hq]; simp)
  obtain ⟨d, hd⟩ := hpeer.exists_stores hown
  refine ⟨f, d, hrefers, hd, ?_⟩
  -- both hosts have the same rows, so the path leads to the dentry of that name
  obtain ⟨i, n, -, hn, hleads⟩ := ho.leads_of_atPath ha
  have htree := hS.inv.tree_eq (hS.queue_eq_nil hq) s
  rw [hS.tree_eq, hS.tree_eq] at htree
  rw [htree] at hleads
  obtain ⟨k, -, hk, hkn, -⟩ := hpeer.atPath_of_leads hleads
  obtain ⟨ino, inoParent, -, hfields, -⟩ := hrefers
  have hname : n = f.name := Option.some.inj (hn.symm.trans (Host.dName?_of_frameFields hfields))
  rw [hname] at hkn
  rw [← hpeer.ptr_eq_of_dName? hkn (Host.dName?_of_frameFields hd.fields)]
  exact hk

/-- **A link lies where its file lies**: when no frame is under way that makes
or removes a link, the peer has the file of a link at the same path. -/
theorem link_at_same_path {path : List Bytes} (hino : ∀ s, InRange (lastIno s + 1))
    (hr : Run Safe (mounted lastIno perm nextPtr table) N) (hq : N.Settled)
    (hlink : (N s).host.isMyFile link = .ok false) (ha : (N s).host.AtPath path link) :
    ∃ (f : Row) (d : Dentry), (N s).host.Refers link f ∧ (N (!s)).host.Stores d f ∧
      (N (!s)).host.AtPath path d.ptr := by
  obtain ⟨S, hS⟩ := hr.refines hino
  exact hS.exists_stores_at hq hlink ha

/-- The link `f` and its file both lie in the root. -/
theorem link_at_same_path_shared : ∃ N, shared (.create [] [102] 0o644) = .ok N ∧
    ∃ (f : Row) (d : Dentry), (N false).host.Refers 2 f ∧ (N true).host.Stores d f ∧
      (N true).host.AtPath [[102]] d.ptr := by
  obtain ⟨N, d, hN, hl⟩ := exists_linked
  exact ⟨N, hN, link_at_same_path (by decide) hl.run hl.settled hl.link hl.path⟩

/-! ## writing and reading through a link -/

variable {f : Row} {d : Dentry} {i : Ptr} {env : Env} {buf : Bytes} {ppos : Nat}

/-- Bytes that arrive at the owner as they are: 1 to 19, none of them NUL, CR or
LF. -/
structure Payload (buf : Bytes) : Prop where
  length : 1 ≤ buf.length ∧ buf.length ≤ 19
  nul : 0 ∉ buf
  line : 13 ∉ buf ∧ 10 ∉ buf

/-- The read request of a link carries what it knows of its file, and is parsed
as it was sent. -/
theorem clientRead_of_refers {h : Host} (hsend : Sendable f) (hrefers : h.Refers link f) :
    h.wjfsClientRead link = .ok (readRequest f.id.1 f.name f.id.2 f.parent) ∧
      parseRead (readRequest f.id.1 f.name f.id.2 f.parent) =
        .ok ⟨f.id.1, f.name, f.id.2, f.parent⟩ := by
  obtain ⟨ino, inoParent, -, hfields, hremote, -⟩ := hrefers
  have hne : f.parent ≠ [] := by
    rcases hsend.parent with heq | hw
    · rw [heq]
      decide
    · exact List.length_pos_iff.mp hw.1
  refine ⟨?_, parseRead_readRequest hsend.name.fitsRow hsend.fitsRow_parent hne hsend.ino.msb
    hsend.inoParent.msb⟩
  simp only [Host.wjfsClientRead, hfields, bind, Except.bind, hremote]

/-- So does the header of its write requests. -/
theorem clientWrite_of_refers {h : Host} (hrefers : h.Refers link f) (message : Bytes) :
    h.wjfsClientWrite link message =
      .ok (writeRequest f.id.1 f.name f.id.2 f.parent message) := by
  obtain ⟨ino, inoParent, -, hfields, hremote, -⟩ := hrefers
  rw [Host.wjfsClientWrite_eq hfields, hremote]

/-- Whatever comes behind the header, the number in it arrives. -/
theorem ino_of_writeRequest (hsend : Sendable f) {message : Bytes} {req : WriteReq}
    (hreq : parseWrite (writeRequest f.id.1 f.name f.id.2 f.parent message) = .ok req) :
    req.ino = f.id.1 := by
  have hname := fitsRow_iff.mp hsend.name.fitsRow
  have hparent := fitsRow_iff.mp hsend.fitsRow_parent
  exact (ino_of_parseWrite hname.2 hparent.2 hreq).trans (string2int_fmtInt hsend.ino.msb)

/-- A write through a link sends a frame that changes the contents of its
file. -/
theorem wjfsWrite_of_refers {h g : Host} (hsend : Sendable f) (hlink : h.isMyFile link = .ok false)
    (hrefers : h.Refers link f) (hstores : g.Stores d f) (hi : d.dInode = some i)
    (hconn : env.connects = true) (hbuf : Payload buf) (ppos : Nat) :
    ∃ frame, h.wjfsWrite env link buf ppos = .ok ⟨h, buf.length, ppos, some frame⟩ ∧
      frame.take 2 = tagWR ∧ g.rdmaWrite frame = .ok (g.setInode i (putFileMessage buf)) := by
  have hclient := clientWrite_of_refers hrefers buf
  obtain ⟨ino, inoParent, -, hfields, -⟩ := hrefers
  obtain ⟨o, frame, hw, hwire, hframe, req, hreq, hmsg⟩ : h.Delivers env link buf ppos :=
    Host.delivers_of hfields hlink hbuf.nul hconn hbuf.length hbuf.line hsend.name.fitsRow
      hsend.fitsRow_parent
  obtain ⟨message, wire, hcopy, -, rfl⟩ := (Host.wjfsWrite_link_eq_ok_iff hlink).mp hw
  obtain ⟨rfl, -⟩ := (copyMessage_eq_ok_iff hbuf.nul).mp hcopy
  obtain rfl : wire = some frame := hwire
  rw [List.take_length] at hframe hmsg
  obtain rfl := Except.ok.inj (hclient.symm.trans hframe)
  have hnum := ino_of_writeRequest hsend hreq
  refine ⟨_, hw, rfl, ?_⟩
  simp only [Host.rdmaWrite, hreq, bind, Except.bind, hnum, hstores.found, hi, hmsg]

/-- A write through a link changes the file of the owner, once its frame is
handled, and nothing else on either host. -/
theorem step_write_deliver (hsend : Sendable f)
    (hlink : (N s).host.isMyFile link = .ok false) (hrefers : (N s).host.Refers link f)
    (hstores : (N (!s)).host.Stores d f) (hi : d.dInode = some i)
    (hbox : (N s).host.outbox = []) (hconn : env.connects = true) (hbuf : Payload buf)
    (ppos : Nat) (newInode : Bool) (stale : Stale) (ip : Bytes) :
    ∃ N₁, N.step (.write s env link buf ppos) = .ok N₁ ∧
      N₁.Safe (.deliver s newInode stale ip) ∧
      N₁.step (.deliver s newInode stale ip) = .ok (Function.update N (!s)
        { N (!s) with host := (N (!s)).host.setInode i (putFileMessage buf) }) := by
  obtain ⟨frame, hw, htag, hput⟩ := wjfsWrite_of_refers hsend hlink hrefers hstores hi hconn hbuf
    ppos
  have hstep : N.step (.write s env link buf ppos) = .ok (Function.update N s
      { N s with host := { (N s).host with outbox := [frame] } }) := by
    simp only [step, hw, Except.map, Option.toList_some, hbox, List.nil_append]
    rw [Party.become_of_nextPtr]
    rfl
  have hother : (!s) ≠ s := by simp
  have hrd : frame.take 2 ≠ tagRD := by rw [htag]; decide
  have hcr : frame.take 2 ≠ tagCR := by rw [htag]; decide
  have hrm : frame.take 2 ≠ tagRM := by rw [htag]; decide
  refine ⟨_, hstep, fun b hb => ?_, ?_⟩
  · rw [Function.update_self] at hb
    cases hb
    exact ⟨fun hc => absurd hc hcr, fun hm => absurd hm hrm⟩
  simp only [step, Function.update_self, Function.update_of_ne hother, Host.pass_other hrd hrm,
    Host.serve_other hrd, Pass.rest_write htag, hput, Except.map]
  refine congrArg Except.ok (funext fun r => ?_)
  by_cases hrs : r = s
  · subst hrs
    rw [Function.update_of_ne hother.symm, Function.update_self, Function.update_of_ne hother.symm,
      ← hbox]
  · obtain rfl : r = !s := by cases r <;> cases s <;> simp_all
    rw [Function.update_self, Function.update_self]

/-- A reply that is a C string shorter than `message[1024]` is received whole. -/
theorem receive_eq {m : Bytes} (hnul : 0 ∉ m) (hlen : m.length < bufSize) : receive m = .ok m := by
  refine cString_eq_ok_iff.mpr ⟨hnul, hlen, fun j _ => ?_⟩
  rw [List.take_of_length_le (Nat.le_of_lt hlen)]

theorem receive_firstString (n : Inode) : receive n.firstString = .ok n.firstString := by
  refine receive_eq (takeWhile_cases _).1 ?_
  have hle := (List.takeWhile_prefix (· ≠ 0) (l := n.contents.take 1023)).length_le
  rw [List.length_take] at hle
  unfold Inode.firstString bufSize
  omega

section Read

variable {h g : Host} {stale : Stale} (hsend : Sendable f) (hlink : h.isMyFile link = .ok false)
  (hrefers : h.Refers link f) (hstores : g.Stores d f) (hi : d.dInode = some i)
  (hconn : env.connects = true) (hclean : CleanRead stale (g.inodes i))
  (htag : (g.inodes i).firstString.take 2 ∉ [tagWR, tagCR, tagRM])
include hsend hlink hrefers hstores hi hconn hclean htag

/-- The request of a link brings back what its file holds. -/
theorem pass_of_refers (newInode : Bool) (ip : Bytes) :
    ∃ frame, h.wjfsClientRead link = .ok frame ∧ h.asks env link = some frame ∧
      g.pass (.server newInode) stale ip frame =
        .ok ⟨g, [.read], some (g.inodes i).firstString⟩ := by
  obtain ⟨hclient, hparse⟩ := clientRead_of_refers hsend hrefers
  refine ⟨_, hclient, ?_, ?_⟩
  · simp only [Host.asks, hlink, hconn, if_true, hclient]
    rfl
  · have hread : g.rdmaRead stale (readRequest f.id.1 f.name f.id.2 f.parent) =
        .ok (g.inodes i).firstString := by
      simp only [Host.rdmaRead, hparse, bind, Except.bind, hstores.found, hi]
      exact getFileMessage_eq_iff.mpr hclean
    refine Host.pass_eq_ok_iff.mpr ⟨?_, Host.usesFreed_of_ne fun hrm => htag (by simp [← hrm])⟩
    unfold Host.serve
    rw [if_pos (show (readRequest f.id.1 f.name f.id.2 f.parent).take 2 = tagRD from rfl), hread]
    exact Pass.rest_none htag

/-- So the read leaves it in the user's memory. -/
theorem wjfsRead_of_refers (newInode : Bool) (ip : Bytes) (k : CInt) (mem : Nat → UInt8)
    (len ppos : Nat) : ∃ frame, h.asks env link = some frame ∧
      g.pass (.server newInode) stale ip frame =
        .ok ⟨g, [.read], some (g.inodes i).firstString⟩ ∧
      ∀ peer : Bytes → Except Fault Bytes, peer frame = .ok (g.inodes i).firstString →
        ∃ o, h.wjfsRead env peer k link mem len ppos = .ok o ∧ o.host = h ∧
          (∀ j < bufSize, o.mem j = ((g.inodes i).firstString[j]?).getD 0) ∧
          o.ret = if k.getLsbD 0 then (g.inodes i).firstString.length else 0 := by
  obtain ⟨frame, hclient, hasks, hserve⟩ := pass_of_refers hsend hlink hrefers hstores hi hconn
    hclean htag newInode ip
  refine ⟨frame, hasks, hserve, fun peer hanswer => ?_⟩
  have hfetch : h.fetch env peer link = .ok (g.inodes i).firstString := by
    simp only [Host.fetch, hclient, bind, Except.bind, hconn, if_true, hanswer, receive_firstString]
  exact ⟨_, (Host.wjfsRead_link_eq_ok_iff hlink).mpr ⟨_, hfetch, rfl⟩, rfl, fun j hj => if_pos hj,
    rfl⟩

end Read

/-- How the peer answers a request. -/
def answer (g : Host) (newInode : Bool) (stale : Stale) (ip frame : Bytes) : Except Fault Bytes :=
  (g.pass (.server newInode) stale ip frame).map fun r => r.reply.getD []

/-- What a file holds after a frame has written to its start. -/
theorem contents_put (n : Inode) (hbuf : Payload buf) :
    (putFileMessage buf n).contents = buf ++ n.contents.drop buf.length :=
  Paged.contents_splice rfl fun k =>
    get_putFileMessage n (Nat.le_trans hbuf.length.2 (by decide)) k

/-- What was written is the start of what is read. -/
theorem firstString_of_contents {n : Inode} {rest : Bytes} (hbuf : Payload buf)
    (hn : n.contents = buf ++ rest) :
    n.firstString = buf ++ (rest.take (1023 - buf.length)).takeWhile (· ≠ 0) := by
  have hlong : buf.length ≤ 1023 := Nat.le_trans hbuf.length.2 (by decide)
  have hclean : ∀ b ∈ buf, decide (b ≠ 0) = true := fun b hb => by
    simpa using fun heq : b = 0 => hbuf.nul (heq ▸ hb)
  rw [Inode.firstString, hn, List.take_append, List.take_of_length_le hlong,
    List.takeWhile_append_of_pos hclean]

/-- The file can be read whole, if there is a NUL behind its end. -/
theorem cleanRead_put {n : Inode} {stale : Stale} (hbuf : Payload buf) (hsize : n.iSize < bufSize)
    (hstale : stale.buf (max n.iSize buf.length) = 0) :
    CleanRead stale (putFileMessage buf n) := by
  have hnew : (putFileMessage buf n).iSize = max n.iSize buf.length := rfl
  have hlt : max n.iSize buf.length < bufSize :=
    Nat.max_lt.mpr ⟨hsize, Nat.lt_of_le_of_lt hbuf.length.2 (by decide)⟩
  refine .inr ⟨?_, ?_, _, rfl, .inr ⟨?_, ?_⟩⟩
  · rw [hnew]
    exact Nat.lt_of_lt_of_le hbuf.length.1 (Nat.le_max_right ..)
  · exact hnew ▸ Nat.le_of_lt hlt
  · exact hnew ▸ hlt
  · exact hnew ▸ hstale

/-- A reply that is taken for another request begins like one. -/
theorem take_firstString {n : Inode} {tag : Bytes} (htag : tag.length = 2)
    (hn : n.firstString.take 2 = tag) : n.contents.take 2 = tag := by
  obtain ⟨rest, hrest⟩ : n.firstString <+: n.contents :=
    (List.takeWhile_prefix _).trans (List.take_prefix _ _)
  have hlen : 2 ≤ n.firstString.length := by
    have := congrArg List.length hn
    rw [List.length_take, htag] at this
    omega
  rw [← hrest, List.take_append_of_le_length hlen, hn]

/-- **What is written through a link is read back through it**: for every state
of a safe run, every link whose file the peer still has, and every payload, the
write changes the start of that file and no other, and the next read through
the link leaves what was written at the start of the user's memory.  It returns
the length of what it found, or nothing at all if the parameter `k` is even. -/
theorem write_then_read (hino : ∀ s, InRange (lastIno s + 1))
    (hr : Run Safe (mounted lastIno perm nextPtr table) N)
    (hlink : (N s).host.isMyFile link = .ok false) (hrefers : (N s).host.Refers link f)
    (hstores : (N (!s)).host.Stores d f) (hi : d.dInode = some i)
    (hbox : (N s).host.outbox = []) (hconn : env.connects = true) (hbuf : Payload buf)
    {stale : Stale} (hsize : ((N (!s)).host.inodes i).iSize < bufSize)
    (hstale : stale.buf (max ((N (!s)).host.inodes i).iSize buf.length) = 0)
    (htag : (buf ++ ((N (!s)).host.inodes i).contents.drop buf.length).take 2 ∉
      [tagWR, tagCR, tagRM])
    (ppos : Nat) (newInode : Bool) (ip : Bytes) (k : CInt) (mem : Nat → UInt8) (len : Nat) :
    ∃ N₁ N₂ o, N.step (.write s env link buf ppos) = .ok N₁ ∧
      N₁.step (.deliver s newInode stale ip) = .ok N₂ ∧ N₂ s = N s ∧
      (∀ j ≠ i, (N₂ (!s)).host.inodes j = (N (!s)).host.inodes j) ∧
      ((N₂ (!s)).host.inodes i).contents =
        buf ++ ((N (!s)).host.inodes i).contents.drop buf.length ∧
      (N₂ s).host.wjfsRead env (answer (N₂ (!s)).host newInode stale ip) k link mem len ppos =
        .ok o ∧ (∀ j < buf.length, some (o.mem j) = buf[j]?) ∧
      o.ret = if k.getLsbD 0 then ((N₂ (!s)).host.inodes i).firstString.length else 0 := by
  obtain ⟨S, hS⟩ := hr.refines hino
  have hpeer := (hS.shows (!s)).orderly
  have hsend := hpeer.sendable_of_owns (hpeer.mem_owns_of_stores hstores)
  obtain ⟨N₁, hwrite, -, hdeliver⟩ := step_write_deliver hsend hlink hrefers hstores hi hbox hconn
    hbuf ppos newInode stale ip
  -- the file after the write, read through the same link
  have hput : ((N (!s)).host.setInode i (putFileMessage buf)).inodes i =
      putFileMessage buf ((N (!s)).host.inodes i) := if_pos rfl
  have hcontents := contents_put ((N (!s)).host.inodes i) hbuf
  have hreply : (putFileMessage buf ((N (!s)).host.inodes i)).firstString.take 2 ∉
      [tagWR, tagCR, tagRM] := by
    intro hmem
    refine htag ?_
    rw [← hcontents, take_firstString ?_ rfl]
    · exact hmem
    · have htags : ∀ tag ∈ [tagWR, tagCR, tagRM], tag.length = 2 := by decide
      exact htags _ hmem
  have hafter : ((N (!s)).host.setInode i (putFileMessage buf)).Stores d f :=
    hpeer.stores_setInode hstores i fun _ => ⟨rfl, rfl, rfl⟩
  obtain ⟨frame, -, hserve, hread⟩ := wjfsRead_of_refers hsend hlink hrefers hafter hi hconn
    (hput ▸ cleanRead_put hbuf hsize hstale) (hput ▸ hreply) newInode ip k mem len ppos
  obtain ⟨o, ho, -, hmem, hret⟩ := hread
    (answer ((N (!s)).host.setInode i (putFileMessage buf)) newInode stale ip)
    (by rw [answer, hserve]; rfl)
  have hother : s ≠ !s := by simp
  refine ⟨N₁, _, o, hwrite, hdeliver, Function.update_of_ne hother .., fun j hj => ?_, ?_, ?_,
    fun j hj => ?_, ?_⟩
  · rw [Function.update_self]
    exact if_neg hj
  · rw [Function.update_self]
    exact (congrArg Inode.contents hput).trans hcontents
  · rw [Function.update_self, Function.update_of_ne hother]
    exact ho
  · have hlong := Nat.lt_of_lt_of_le hj (Nat.le_trans hbuf.length.2 (by decide : 19 ≤ bufSize))
    rw [hmem j hlong, hput, firstString_of_contents hbuf hcontents, List.getElem?_append_left hj,
      List.getElem?_eq_getElem hj, Option.getD_some]
  · rw [Function.update_self]
    exact hret

/-- `"hi"`, written to the empty file and read back. -/
theorem write_then_read_hi : ∃ N N₁ N₂ o, shared (.create [] [102] 0o644) = .ok N ∧
    N.step (.write false (.server true) 2 [104, 105] 0) = .ok N₁ ∧
    N₁.step (.deliver false true zeroStack []) = .ok N₂ ∧
    (N₂ false).host.wjfsRead (.server true) (answer (N₂ true).host true zeroStack []) 1 2
      (fun _ => 7) 5 0 = .ok o ∧ o.mem 0 = 104 ∧ o.mem 1 = 105 ∧
    o.ret = ((N₂ true).host.inodes 3).firstString.length := by
  obtain ⟨N, d, hN, hl⟩ := exists_linked
  have hnil : ((N true).host.inodes 3).contents = [] := by
    refine List.length_eq_zero_iff.mp ?_
    rw [Inode.contents, Paged.length_contents]
    exact hl.empty
  have hconn : (Env.server true).connects = true := rfl
  have hbuf : Payload [104, 105] := ⟨by decide, by decide, by decide⟩
  have hstale : zeroStack.buf (max ((N true).host.inodes 3).iSize [104, 105].length) = 0 := rfl
  obtain ⟨N₁, N₂, o, hwrite, hdeliver, -, -, -, hread, hmem, hret⟩ :=
    write_then_read (by decide) hl.run hl.link hl.refers hl.stores hl.inode hl.outbox hconn hbuf
      (by rw [Bool.not_false, hl.empty]; decide) hstale
      (by rw [Bool.not_false, hnil]; decide) 0 true
      [] 1 (fun _ => 7) 5
  exact ⟨N, N₁, N₂, o, hN, hwrite, hdeliver, hread, Option.some.inj (hmem 0 (by decide)),
    Option.some.inj (hmem 1 (by decide)), hret⟩

end Net

end Wjfs
