import Wjfs.Host.Linked
import Wjfs.Links
import Wjfs.Replica

/-!
# Wjfs.Rows

The files of a host, as it describes them to its peer.

A row has what a create frame says of a file: its name, the name of its
directory, whether it is a directory, and the numbers of both.  `Owns` are the
rows of the files that the host made, `Copies` those of its links, with the
numbers that the table has for them.  `Orderly` is the order that makes the
searches by name and by number find the right dentry, and makes the table fit
the tree.
-/

namespace Wjfs

open Replica

/-- A file as a create frame describes it; the numbers of the file and of its
directory are what its owner calls it. -/
abbrev Row := File Bytes (CInt × CInt)

/-- An inode number between 1 and 2³¹ - 1. -/
def InRange (n : CInt) : Prop := 1 ≤ n.toNat ∧ n.toNat < 2 ^ 31

instance (n : CInt) : Decidable (InRange n) := by unfold InRange; infer_instance

/-- A name of 1 to 15 bytes, none of them `/`, NUL, a blank, CR or LF. -/
def WellFormed (n : Bytes) : Prop :=
  1 ≤ n.length ∧ n.length ≤ 15 ∧ 47 ∉ n ∧ 0 ∉ n ∧ 32 ∉ n ∧ 13 ∉ n ∧ 10 ∉ n

instance (n : Bytes) : Decidable (WellFormed n) := by unfold WellFormed; infer_instance

theorem InRange.msb {n : CInt} (hn : InRange n) : n.msb = false := by
  simpa [BitVec.msb_eq_decide] using hn.2

/-- `lookup_one_len` takes it for a name. -/
theorem WellFormed.isName {n : Bytes} (hn : WellFormed n) : ¬ (n = [] ∨ 47 ∈ n ∨ 0 ∈ n) := by
  rintro (rfl | hslash | hnul)
  · exact absurd hn.1 (by decide)
  · exact hn.2.2.1 hslash
  · exact hn.2.2.2.1 hnul

theorem WellFormed.fitsRow {n : Bytes} (hn : WellFormed n) : FitsRow n := by
  obtain ⟨-, hlen, -, -, h1, h2, h3⟩ := hn
  exact ⟨by omega, h1, h2, h3⟩

theorem WellFormed.ne_rootName {n : Bytes} (hn : WellFormed n) : n ≠ Host.rootName := by
  rintro rfl
  exact absurd hn (by decide)

namespace Host

variable {g h : Host} {mine mine' : Set Ptr} {p i j k : Ptr} {d : Dentry}
  {x y : Option Ptr × Dentry} {f r : Row}

/-! ## rows -/

/-- Dentry `d` lies in directory `p` and has inode `i`; `x` is the dentry of
that directory and `j` its inode. -/
structure Seat (h : Host) (p : Ptr) (d : Dentry) (x : Option Ptr × Dentry) (i j : Ptr) : Prop where
  mem : (some p, d) ∈ h.dcache.bare
  inode : d.dInode = some i
  parent : x ∈ h.dcache.bare
  parentPtr : x.2.ptr = p
  parentInode : x.2.dInode = some j

/-- The row of a dentry. -/
def row (h : Host) (d : Dentry) (x : Option Ptr × Dentry) (i j : Ptr) : Row where
  name := d.dName
  parent := x.2.dName
  isDir := (h.inodes i).isDir
  id := (h.number i, h.number j)

theorem row_congr (hi : SameFile (g.inodes i) (h.inodes i))
    (hj : SameFile (g.inodes j) (h.inodes j)) : g.row d x i j = h.row d x i j := by
  simp only [row, number, hi.1, hi.2, hj.1]

/-- The inode `i` belongs to a dentry with the row `f`. -/
def HasRow (h : Host) (i : Ptr) (f : Row) : Prop :=
  ∃ p d x j, h.Seat p d x i j ∧ f = h.row d x i j

/-- The rows of the host's own files, `mine` being the inodes that it made for
itself. -/
def Owns (h : Host) (mine : Set Ptr) : Set Row := {f | ∃ i ∈ mine, h.HasRow i f}

/-- The rows of its links, with the numbers that their entries have for the
files of the peer. -/
def Copies (h : Host) (mine : Set Ptr) : Set Row :=
  {f | ∃ i ∉ mine, ∃ r, h.HasRow i r ∧ ∃ e ∈ h.table.live, e.localIno = r.id.1 ∧
    f = { r with id := (e.rdmaIno, e.rdmaParentIno) }}

/-! ## one dentry more -/

/-- `h` has one dentry more than `g`: `d` in directory `p`, without children. -/
structure Planted (g h : Host) (p : Ptr) (d : Dentry) (x : Option Ptr × Dentry) (i j : Ptr) :
    Prop where
  perm : h.dcache.bare.Perm ((some p, d) :: g.dcache.bare)
  nodup : h.dcache.ptrs.Nodup
  inode : d.dInode = some i
  parent : x ∈ g.dcache.bare
  parentPtr : x.2.ptr = p
  parentInode : x.2.dInode = some j
  leaf : ∀ y ∈ g.dcache.bare, y.1 ≠ some d.ptr
  same : ∀ y ∈ g.dcache.bare, ∀ i, y.2.dInode = some i → SameFile (h.inodes i) (g.inodes i)

/-- A tree with a new leaf. -/
theorem Tidy.planted {pin : Ptr → Nat} (ht : g.Tidy pin) (hdcache : h.dcache = g.dcache.plant p d)
    (hptr : d.ptr = g.nextPtr) (hi : d.dInode = some i) (hj : g.dInode? p = some j)
    (hsame : ∀ k < g.nextPtr, SameFile (h.inodes k) (g.inodes k)) :
    ∃ x, Planted g h p (d.withCount 0) x i j ∧ g.dName? p = some x.2.dName := by
  obtain ⟨z, hz, hzj⟩ := Ready.exists_dentry hj
  have hzm := Dcache.mem_nodes_of_node? hz
  have hzp : z.2.ptr = p := Dcache.ptr_of_node? hz
  have hp : p ∈ g.dcache.ptrs := Dcache.mem_ptrs_of_node? hz
  have hnew : d.ptr ∉ g.dcache.ptrs := hptr ▸ ht.ready.nextPtr_not_mem
  refine ⟨Dcache.strip z, ⟨?_, ?_, hi, Dcache.mem_bare_of_mem hzm, hzp, hzj, ?_, ?_⟩, ?_⟩
  · rw [hdcache]
    exact Dcache.bare_plant ht.sound.nodup hp
  · rw [hdcache]
    exact Dcache.nodup_plant ht.sound.nodup hp hnew
  · intro y hy hyd
    obtain ⟨⟨q, e⟩, he, rfl⟩ := Dcache.exists_of_mem_bare hy
    obtain rfl : q = some d.ptr := hyd
    exact hnew (Dcache.parent_mem_ptrs he)
  · intro y hy k hk
    obtain ⟨z, hz, rfl⟩ := Dcache.exists_of_mem_bare hy
    exact hsame k (ht.ready.inode_lt z hz k hk)
  · rw [dName?, hz]
    rfl

/-- A tree without one of its leaves. -/
theorem Tidy.planted_of_perm {pin : Ptr → Nat} (ht : h.Tidy pin)
    (hd : (some p, d) ∈ h.dcache.nodes) (h0 : h.dcache.kids d.ptr = 0)
    (hperm : h.dcache.bare.Perm (Dcache.strip (some p, d) :: g.dcache.bare))
    (hi : d.dInode = some i) (hj : h.dInode? p = some j)
    (hsame : ∀ k, SameFile (h.inodes k) (g.inodes k)) :
    ∃ x, Planted g h p (d.withCount 0) x i j ∧ h.dName? p = some x.2.dName := by
  obtain ⟨z, hz, hzj⟩ := Ready.exists_dentry hj
  have hzp : z.2.ptr = p := Dcache.ptr_of_node? hz
  have hzm := Dcache.mem_bare_of_mem (Dcache.mem_nodes_of_node? hz)
  refine ⟨Dcache.strip z, ⟨hperm, ht.sound.nodup, hi, ?_, hzp, hzj, ?_, fun _ _ k _ => hsame k⟩,
    ?_⟩
  · refine (List.mem_cons.mp (hperm.mem_iff.mp hzm)).resolve_left fun heq => ?_
    have hptr : z.2.ptr = d.ptr := congrArg (fun v => v.2.ptr) heq
    exact Dcache.parent_ne_ptr ht.sound.nodup hd (hzp.symm.trans hptr)
  · intro y hy hyd
    obtain ⟨⟨q, e⟩, he, rfl⟩ :=
      Dcache.exists_of_mem_bare (hperm.mem_iff.mpr (List.mem_cons_of_mem _ hy))
    obtain rfl : q = some d.ptr := hyd
    have hpos := Dcache.kids_pos_of_mem he
    omega
  · rw [dName?, hz]
    rfl

theorem SameFile.symm {n m : Inode} (hs : SameFile n m) : SameFile m n := ⟨hs.1.symm, hs.2.symm⟩

theorem sameFile_dropNlink (n : Inode) : SameFile n.dropNlink n := ⟨rfl, rfl⟩

theorem sameFile_setDead (n : Inode) : SameFile n.setDead n := ⟨rfl, rfl⟩

theorem SameFile.setInode {F : Inode → Inode} (hk : SameFile (h.inodes k) (g.inodes k))
    (hF : ∀ n, SameFile (F n) n) (i : Ptr) :
    SameFile (h.inodes k) ((g.setInode i F).inodes k) := by
  unfold Host.setInode
  by_cases hki : k = i
  · subst hki
    simp only [if_true]
    exact ⟨hk.1.trans (hF _).1.symm, hk.2.trans (hF _).2.symm⟩
  · simp only [if_neg hki]
    exact hk

section Created

variable {env : Env} {path : List Bytes} {n : Bytes} {dir di : Ptr} {mode : Mode}

theorem sameFile_created (hk : k < h.nextPtr) :
    SameFile ((h.created env dir di n mode).inodes k) (h.inodes k) := by
  rw [inodes_created_old (Nat.ne_of_lt (Nat.lt_succ_of_lt hk))]
  split <;> exact ⟨rfl, rfl⟩

variable {pin : Ptr → Nat} (ht : h.Tidy pin) (hq : h.NewName env path n dir di)
include ht hq

/-- A call that makes a file. -/
theorem Tidy.planted_created (mode : Mode) : ∃ x, Planted h (h.created env dir di n mode) dir
    ((liveDentry h.nextPtr n (h.nextPtr + 1)).withCount 0) x (h.nextPtr + 1) di ∧
      h.dName? dir = some x.2.dName := by
  have hp := ht.planted (dcache_created h env dir di n mode) rfl rfl hq.inode
    fun k hk => sameFile_created hk
  rwa [Dentry.withCount_withCount] at hp

/-- The inode of the file. -/
theorem Tidy.inodes_created (mode : Mode) :
    (h.created env dir di n mode).inodes (h.nextPtr + 1) = h.newInode di mode := by
  obtain ⟨z, hz, hzi⟩ := Ready.exists_dentry hq.inode
  have hlt : di < h.nextPtr := ht.ready.inode_lt z (Dcache.mem_nodes_of_node? hz) di hzi
  exact inodes_created_new (Nat.ne_of_lt (Nat.lt_succ_of_lt hlt))

end Created

theorem onePin_congr (hroot : g.root = h.root) : g.onePin = h.onePin := by
  unfold onePin
  rw [hroot]

theorem Tidy.created_onePin {env : Env} {path : List Bytes} {n : Bytes} {dir di : Ptr} {mode : Mode}
    (ht : h.Tidy h.onePin) (hq : h.NewName env path n dir di) (hz : mode.fmt ≠ .zero) :
    (h.created env dir di n mode).Tidy (h.created env dir di n mode).onePin := by
  rw [onePin_congr frame_created.1, ← update_onePin ht.nextPtr_ne_root]
  exact ht.created hq.inode hq.isDir hz

/-- A create frame. -/
theorem Tidy.planted_linked {pin : Ptr → Nat} {env : Env} {c : Control} {dir di : Ptr}
    (ht : h.Tidy pin) (hl : h.Linkable env c dir di) (table : Table) :
    ∃ x, Planted h (h.linked dir di c table) dir ((h.linkDentry c).withCount 0) x (h.nextPtr + 1)
      di ∧ h.dName? dir = some x.2.dName := by
  refine ht.planted (h := h.linked dir di c table) rfl rfl rfl hl.inode fun k hk => ?_
  rw [inodes_linked (Nat.ne_of_lt (Nat.lt_succ_of_lt hk))]
  exact ⟨rfl, rfl⟩

section Pruned

variable {env : Env} {dir di : Ptr}

/-- A leaf that was taken out. -/
theorem Tidy.planted_pruned (ht : h.Tidy h.onePin) (hd : (some dir, d) ∈ h.dcache.nodes)
    (h0 : h.dcache.kids d.ptr = 0) (hdi : h.dInode? dir = some di) (hi : d.dInode = some i)
    (hdcache : g.dcache = (h.pruned dir d.ptr).dcache)
    (hsame : ∀ k, SameFile (h.inodes k) (g.inodes k)) :
    ∃ x, Planted g h dir (d.withCount 0) x i di ∧ h.dName? dir = some x.2.dName := by
  have hbare := ht.bare_pruned hd h0 (one_le_onePin dir)
  rw [← hdcache] at hbare
  exact ht.planted_of_perm hd h0 hbare hi hdi hsame

theorem sameFile_unlinked (k : Ptr) :
    SameFile (h.inodes k) ((h.unlinked env dir di i d).inodes k) := by
  rw [unlinked, inodes_send]
  exact SameFile.setInode ⟨rfl, rfl⟩ sameFile_dropNlink i

theorem sameFile_rmdired (k : Ptr) :
    SameFile (h.inodes k) ((h.rmdired env dir di i d).inodes k) := by
  refine SameFile.setInode ?_ sameFile_setDead i
  rw [inodes_send]
  exact SameFile.setInode (SameFile.setInode (SameFile.setInode ⟨rfl, rfl⟩ sameFile_dropNlink i)
    sameFile_dropNlink i) sameFile_dropNlink di

theorem frame_forgotten {c : Control} {p : Ptr} :
    (h.forgotten c p dir d i).dcache = (h.pruned p d.ptr).dcache ∧
    (h.forgotten c p dir d i).table = (h.released c).table ∧
    (h.forgotten c p dir d i).nextPtr = h.nextPtr ∧
    (h.forgotten c p dir d i).outbox = h.outbox ∧
    ∀ k, SameFile (h.inodes k) ((h.forgotten c p dir d i).inodes k) := by
  have hlink : ∀ k, SameFile (h.inodes k)
      ((((h.released c).pruned p d.ptr).setInode i Inode.dropNlink).inodes k) := fun k =>
    SameFile.setInode ⟨rfl, rfl⟩ sameFile_dropNlink i
  unfold forgotten
  split
  · exact ⟨rfl, rfl, rfl, rfl, fun k => SameFile.setInode (SameFile.setInode (hlink k)
      sameFile_dropNlink i) sameFile_dropNlink dir⟩
  · exact ⟨rfl, rfl, rfl, rfl, hlink⟩

end Pruned

namespace Planted

variable (hp : Planted g h p d x i j)
include hp

theorem mem_bare : y ∈ h.dcache.bare ↔ y = (some p, d) ∨ y ∈ g.dcache.bare := by
  rw [hp.perm.mem_iff, List.mem_cons]

theorem nodup_ptrs : (d.ptr :: g.dcache.bare.map fun x => x.2.ptr).Nodup := by
  have hperm := hp.perm.map fun x => x.2.ptr
  rw [Dcache.map_ptr_bare] at hperm
  exact hperm.nodup_iff.mp hp.nodup

/-- The new dentry is at an address of its own. -/
theorem ptr_ne (hy : y ∈ g.dcache.bare) : y.2.ptr ≠ d.ptr := fun heq =>
  (List.nodup_cons.mp hp.nodup_ptrs).1 (List.mem_map.mpr ⟨y, hy, heq⟩)

theorem eq_parent (hy : y ∈ g.dcache.bare) (hyp : y.2.ptr = p) : y = x :=
  List.inj_on_of_nodup_map (List.nodup_cons.mp hp.nodup_ptrs).2 hy hp.parent
    (hyp.trans hp.parentPtr.symm)

theorem seat : h.Seat p d x i j :=
  ⟨hp.mem_bare.mpr (.inl rfl), hp.inode, hp.mem_bare.mpr (.inr hp.parent), hp.parentPtr,
    hp.parentInode⟩

/-- The dentries of both, and the new one. -/
theorem seat_iff {p' i' j' : Ptr} {d' : Dentry} : h.Seat p' d' y i' j' ↔
    g.Seat p' d' y i' j' ∨ p' = p ∧ d' = d ∧ y = x ∧ i' = i ∧ j' = j := by
  constructor
  · rintro ⟨hd, hi, hy, hptr, hj⟩
    rcases hp.mem_bare.mp hd with heq | hd
    · cases heq
      rcases hp.mem_bare.mp hy with rfl | hy
      · exact absurd (hp.parentPtr.trans hptr.symm) (hp.ptr_ne hp.parent)
      · obtain rfl := hp.eq_parent hy hptr
        exact .inr ⟨rfl, rfl, rfl, Option.some.inj (hi.symm.trans hp.inode),
          Option.some.inj (hj.symm.trans hp.parentInode)⟩
    · rcases hp.mem_bare.mp hy with rfl | hy
      · exact absurd (congrArg some hptr.symm) (hp.leaf _ hd)
      · exact .inl ⟨hd, hi, hy, hptr, hj⟩
  · rintro (⟨hd, hi, hy, hptr, hj⟩ | ⟨rfl, rfl, rfl, rfl, rfl⟩)
    · exact ⟨hp.mem_bare.mpr (.inr hd), hi, hp.mem_bare.mpr (.inr hy), hptr, hj⟩
    · exact hp.seat

theorem row_eq {p' i' j' : Ptr} {d' : Dentry} (hs : g.Seat p' d' y i' j') :
    h.row d' y i' j' = g.row d' y i' j' :=
  row_congr (hp.same _ hs.mem i' hs.inode) (hp.same _ hs.parent j' hs.parentInode)

/-- The rows of both, and the new one. -/
theorem hasRow_iff : h.HasRow k f ↔ g.HasRow k f ∨ k = i ∧ f = h.row d x i j := by
  constructor
  · rintro ⟨p', d', y, j', hs, rfl⟩
    rcases hp.seat_iff.mp hs with hs | ⟨rfl, rfl, rfl, rfl, rfl⟩
    · exact .inl ⟨p', d', y, j', hs, hp.row_eq hs⟩
    · exact .inr ⟨rfl, rfl⟩
  · rintro (⟨p', d', y, j', hs, rfl⟩ | ⟨rfl, rfl⟩)
    · exact ⟨p', d', y, j', hp.seat_iff.mpr (.inl hs), (hp.row_eq hs).symm⟩
    · exact ⟨p, d, x, j, hp.seat, rfl⟩

section Mine

variable (hmine : ∀ k f, g.HasRow k f → (k ∈ mine' ↔ k ∈ mine))
include hmine

/-- A file of the host's own more. -/
theorem owns_insert (hi : i ∈ mine') : h.Owns mine' = insert (h.row d x i j) (g.Owns mine) := by
  ext f
  constructor
  · rintro ⟨k, hk, hf⟩
    rcases hp.hasRow_iff.mp hf with hf | ⟨rfl, rfl⟩
    · exact .inr ⟨k, (hmine k f hf).mp hk, hf⟩
    · exact .inl rfl
  · rintro (rfl | ⟨k, hk, hf⟩)
    · exact ⟨i, hi, hp.hasRow_iff.mpr (.inr ⟨rfl, rfl⟩)⟩
    · exact ⟨k, (hmine k f hf).mpr hk, hp.hasRow_iff.mpr (.inl hf)⟩

theorem copies_of_own (hi : i ∈ mine') (hlive : h.table.live = g.table.live) :
    h.Copies mine' = g.Copies mine := by
  ext f
  constructor
  · rintro ⟨k, hk, r, hr, hf⟩
    rcases hp.hasRow_iff.mp hr with hr | ⟨rfl, rfl⟩
    · exact ⟨k, mt (hmine k r hr).mpr hk, r, hr, hlive ▸ hf⟩
    · exact absurd hi hk
  · rintro ⟨k, hk, r, hr, hf⟩
    exact ⟨k, mt (hmine k r hr).mp hk, r, hp.hasRow_iff.mpr (.inl hr), hlive ▸ hf⟩

/-- A link more. -/
theorem owns_of_link (hi : i ∉ mine') : h.Owns mine' = g.Owns mine := by
  ext f
  constructor
  · rintro ⟨k, hk, hf⟩
    rcases hp.hasRow_iff.mp hf with hf | ⟨rfl, rfl⟩
    · exact ⟨k, (hmine k f hf).mp hk, hf⟩
    · exact absurd hk hi
  · rintro ⟨k, hk, hf⟩
    exact ⟨k, (hmine k f hf).mpr hk, hp.hasRow_iff.mpr (.inl hf)⟩

theorem copies_insert {e : Entry} (hi : i ∉ mine') (hlive : h.table.live.Perm (e :: g.table.live))
    (hloc : e.localIno = h.number i) (hrow : ∀ k f, g.HasRow k f → f.id.1 ≠ h.number i)
    (hentry : ∀ e' ∈ g.table.live, e'.localIno ≠ h.number i) :
    h.Copies mine' =
      insert { h.row d x i j with id := (e.rdmaIno, e.rdmaParentIno) } (g.Copies mine) := by
  ext f
  constructor
  · rintro ⟨k, hk, r, hr, e', he', hloc', rfl⟩
    rcases hp.hasRow_iff.mp hr with hr | ⟨rfl, rfl⟩
    · rcases List.mem_cons.mp (hlive.mem_iff.mp he') with rfl | he'
      · exact absurd (hloc'.symm.trans hloc) (hrow k r hr)
      · exact .inr ⟨k, mt (hmine k r hr).mpr hk, r, hr, e', he', hloc', rfl⟩
    · rcases List.mem_cons.mp (hlive.mem_iff.mp he') with rfl | he'
      · exact .inl rfl
      · exact absurd hloc' (hentry e' he')
  · rintro (rfl | ⟨k, hk, r, hr, e', he', hloc', rfl⟩)
    · exact ⟨i, hi, h.row d x i j, hp.hasRow_iff.mpr (.inr ⟨rfl, rfl⟩), e,
        hlive.mem_iff.mpr List.mem_cons_self, hloc, rfl⟩
    · exact ⟨k, mt (hmine k r hr).mp hk, r, hp.hasRow_iff.mpr (.inl hr), e',
        hlive.mem_iff.mpr (List.mem_cons_of_mem e he'), hloc', rfl⟩

end Mine

end Planted

end Host

end Wjfs
