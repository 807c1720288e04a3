import Mathlib.Data.Set.Basic
import Wjfs.Host.Linked
import Wjfs.Reorder
import Wjfs.Run

/-!
# Wjfs.Delivery

Create frames that arrive in another order than they were sent in.

Each frame comes on a connection of its own, so the server may accept them in
any order.  Sibling order, inode numbers and table slots all depend on it.
`Catalog` is what does not: the paths, what is recorded for each, and where
the search for a parent leads.  `rdma_create` adds to the catalog of a host
what its frame announces, and announcements that do not need each other can
be exchanged.
-/

namespace Wjfs

/-! ## announcements -/

section Catalog

variable {ν ρ : Type*} [DecidableEq ν]

/-- A file that is announced: its name, the name of its directory, whether it
is a directory itself, and what to record for it. -/
structure Announcement (ν ρ : Type*) where
  name : ν
  parent : ν
  isDir : Bool
  record : ρ

/-- What a host shows to those who announce files to it: its paths, what is
recorded for them, and at which paths the search for a name ends. -/
@[ext] structure Catalog (ν ρ : Type*) where
  names : Set (List ν × Bool)
  records : Set (List ν × ρ)
  leads : ν → Set (List ν)

namespace Catalog

/-- Where an announced file is put. -/
def places (s : Catalog ν ρ) (a : Announcement ν ρ) : Set (List ν) :=
  {path | ∃ dir ∈ s.leads a.parent, path = dir ++ [a.name]}

/-- The catalog with an announced file. -/
def add (s : Catalog ν ρ) (a : Announcement ν ρ) : Catalog ν ρ where
  names := {x | x ∈ s.names ∨ x.1 ∈ s.places a ∧ x.2 = a.isDir}
  records := {x | x ∈ s.records ∨ x.1 ∈ s.places a ∧ x.2 = a.record}
  leads n := if n = a.name then s.places a else s.leads n

/-- An announcement that does not name the other file as its directory puts
its own file where it did before. -/
theorem places_add {s : Catalog ν ρ} {a b : Announcement ν ρ} (h : a.name ≠ b.parent) :
    (s.add a).places b = s.places b := by
  unfold places add
  simp only [if_neg h.symm]

/-- Two announcements can be exchanged unless one needs the other. -/
theorem add_comm {s : Catalog ν ρ} {a b : Announcement ν ρ} (hname : a.name ≠ b.name)
    (hab : a.name ≠ b.parent) (hba : b.name ≠ a.parent) :
    (s.add a).add b = (s.add b).add a := by
  ext x
  · show (x ∈ s.names ∨ _) ∨ x.1 ∈ (s.add a).places b ∧ _ ↔
      (x ∈ s.names ∨ _) ∨ x.1 ∈ (s.add b).places a ∧ _
    rw [places_add hab, places_add hba]
    exact or_right_comm
  · show (x ∈ s.records ∨ _) ∨ x.1 ∈ (s.add a).places b ∧ _ ↔
      (x ∈ s.records ∨ _) ∨ x.1 ∈ (s.add b).places a ∧ _
    rw [places_add hab, places_add hba]
    exact or_right_comm
  · show _ ∈ (if x = b.name then (s.add a).places b else if x = a.name then _ else _) ↔
      _ ∈ (if x = a.name then (s.add b).places a else if x = b.name then _ else _)
    rw [places_add hab, places_add hba]
    by_cases hxb : x = b.name
    · have hxa : x ≠ a.name := fun hxa => hname (hxa.symm.trans hxb)
      simp only [if_pos hxb, if_neg hxa]
    · simp only [if_neg hxb]

end Catalog

end Catalog

/-- What a create frame announces. -/
def Control.announcement (c : Control) : Announcement Bytes (CInt × CInt) where
  name := c.name
  parent := c.nameParent
  isDir := (Host.linkMode c.mode).isDir
  record := (c.ino, c.inoParent)

namespace Host

variable {h : Host} {env : Env} {c : Control} {dir di k : Ptr} {table : Table} {path : List Bytes}
  {n : Bytes} {b : Bool} {r : CInt × CInt}

/-- The catalog of a host. -/
def catalog (h : Host) : Catalog Bytes (CInt × CInt) where
  names := {x | h.Names x.1 x.2}
  records := {x | h.Records x.1 x.2}
  leads n := {path | ∃ k, h.resolveParent n = some k ∧ h.AtPath path k}

/-- The catalog is that of the host, as far as names of `P` are searched for. -/
structure Catalogued (h : Host) (P : Set Bytes) (s : Catalog Bytes (CInt × CInt)) : Prop where
  names : s.names = h.catalog.names
  records : s.records = h.catalog.records
  leads : ∀ n ∈ P, s.leads n = h.catalog.leads n

/-! ## one frame -/

section Catalog

variable {P : Set Bytes} {s : Catalog Bytes (CInt × CInt)} (hcat : h.Catalogued P s)
  (hs : h.Sane) (hl : h.Linkable env c dir di) (hpar : c.nameParent ∈ P) {ip : Bytes}
  (hins : h.table.insert (h.linkEntry di c ip) = .ok table)
include hcat hl hpar

theorem Catalogued.mem_places : path ∈ s.places c.announcement ↔
    ∃ pre, h.AtPath pre dir ∧ path = pre ++ [c.name] := by
  show (∃ pre ∈ s.leads c.nameParent, _) ↔ _
  rw [hcat.leads _ hpar]
  constructor
  · rintro ⟨pre, ⟨k, hk, ha⟩, rfl⟩
    cases hk.symm.trans hl.parent
    exact ⟨pre, ha, rfl⟩
  · rintro ⟨pre, ha, rfl⟩
    exact ⟨pre, ⟨dir, hl.parent, ha⟩, rfl⟩

include hs hins

/-- **A create frame adds what it announces**, if its name is new, as far as
that is searched for, and so is the number drawn for it. -/
theorem Catalogued.linked
    (hname : c.name ∈ P → ∀ x ∈ h.dcache.nodes, x.2.dName ≠ c.name)
    (hfree : h.Unused (h.lastIno + 1)) :
    (h.linked dir di c table).Catalogued P (s.add c.announcement) := by
  refine ⟨Set.ext fun x => ?_, Set.ext fun x => ?_, fun n hn => Set.ext fun path => ?_⟩
  · refine Iff.trans ?_ (names_linked hs hl).symm
    exact or_congr (by rw [hcat.names]; rfl) (and_congr (hcat.mem_places hl hpar) Iff.rfl)
  · refine Iff.trans ?_ (records_linked hs hl hins hfree).symm
    exact or_congr (by rw [hcat.records]; rfl) (and_congr (hcat.mem_places hl hpar) Iff.rfl)
  · show path ∈ (if n = c.name then _ else _) ↔
      ∃ k, (h.linked dir di c table).resolveParent n = some k ∧ _
    by_cases hnc : n = c.name
    · subst hnc
      rw [resolveParent_link table hs hl (hname hn), if_pos rfl, hcat.mem_places hl hpar]
      constructor
      · exact fun hpre => ⟨_, rfl, (atPath_linked hs hl).mpr (.inr ⟨rfl, hpre⟩)⟩
      · rintro ⟨k, hk, ha⟩
        cases hk
        rcases (atPath_linked hs hl).mp ha with ha | ⟨-, hpre⟩
        · exact absurd rfl (hs.ne_of_mem ha.mem_ptrs)
        · exact hpre
    · rw [resolveParent_linked table hs hl hnc, if_neg hnc, hcat.leads n hn]
      constructor
      · rintro ⟨k, hk, ha⟩
        exact ⟨k, hk, (atPath_linked hs hl).mpr (.inl ha)⟩
      · rintro ⟨k, hk, ha⟩
        rcases (atPath_linked hs hl).mp ha with ha | ⟨rfl, -⟩
        · exact ⟨k, hk, ha⟩
        · obtain ⟨y, hy, -, hptr⟩ := exists_of_resolveParent hs.held.nodup hk
          exact absurd hptr (hs.ne_of_mem (Dcache.mem_ptrs_of_mem hy))

end Catalog

end Host

/-! ## lists of frames -/

/-- A well-formed create frame and the address it came from.  Its name has 1 to
15 bytes and is no path. -/
structure Creation where
  buf : Bytes
  ip : Bytes
  control : Control
  tag : buf.take 2 = tagCR
  parse : parseControl buf = .ok control
  length : 1 ≤ control.name.length ∧ control.name.length ≤ 15
  plain : 47 ∉ control.name ∧ 0 ∉ control.name

namespace Creation

/-- The name announced. -/
def name (f : Creation) : Bytes := f.control.name

/-- The name of the directory it is announced in. -/
def parent (f : Creation) : Bytes := f.control.nameParent

/-- The frame announces the directory that another one names. -/
def MakesParentOf (d f : Creation) : Prop := d.control.mode ≠ 0 ∧ d.name = f.parent

instance (d f : Creation) : Decidable (d.MakesParentOf f) := by
  unfold MakesParentOf
  infer_instance

end Creation

/-- Each directory's own frame comes before the frames that name it as their
directory. -/
def ParentsFirst (l : List Creation) : Prop :=
  (l.Pairwise fun f d => ¬ d.MakesParentOf f) ∧ ∀ f ∈ l, ¬ f.MakesParentOf f

instance (l : List Creation) : Decidable (ParentsFirst l) := by
  unfold ParentsFirst
  infer_instance

namespace Host

variable {h g : Host} {l l₁ l₂ fs : List Creation} {f : Creation} {n : Bytes}

/-- Handle create frames one after the other; there is memory. -/
def createAll (h : Host) : List Creation → Except Fault Host
  | [] => .ok h
  | f :: fs => do (← h.rdmaCreate (.server true) f.buf f.ip).createAll fs

/-- The name of the root or of a dentry that is hashed and has an inode. -/
def LiveName (h : Host) (n : Bytes) : Prop :=
  ∃ x ∈ h.dcache.nodes, (x.2.ptr = h.root ∨ x.2.positive = true) ∧ x.2.dName = n

instance (h : Host) (n : Bytes) : Decidable (h.LiveName n) := by unfold LiveName; infer_instance

/-- A name that resolves to a live directory; `"/"` resolves to the root. -/
def Directory (h : Host) (n : Bytes) : Prop :=
  ∃ k ∈ h.resolveParent n, ∃ i ∈ h.dInode? k, (h.inodes i).isDir = true ∧
    (h.inodes i).dead = false

instance (h : Host) (n : Bytes) : Decidable (h.Directory n) := by unfold Directory; infer_instance

/-- Frames that announce new files: no name is announced twice or there
already, every directory is there or announced, and the table has room. -/
structure Announced (h : Host) (fs : List Creation) : Prop where
  distinct : (fs.map Creation.name).Nodup
  new : ∀ f ∈ fs, ¬ h.LiveName f.name
  parents : ∀ f ∈ fs, h.Directory f.parent ∨ ∃ d ∈ fs, d.MakesParentOf f
  slots : h.table.live.length + fs.length ≤ tableSize

/-- Nothing is left over that could be taken for what the frames make.  No
hashed dentry without an inode has one of the names; nor has an unhashed one,
where a frame gives the name as that of its directory, which is searched for
without regard to the hash.  No dentry and no used entry has one of the
numbers that will be drawn. -/
structure Clean (h : Host) (fs : List Creation) : Prop where
  names : ∀ f ∈ fs, ∀ x ∈ h.dcache.nodes, x.2.dName = f.name →
    (x.2.dUnhashed = false ∨ ∃ g ∈ fs, g.parent = f.name) → h.LiveName f.name
  numbers : ∀ j < fs.length, h.Unused (h.lastIno + 1 + BitVec.ofNat 32 j)

/-- What has to hold for a list of frames to be handled in this order, apart
from room in the table.  `P` are the names that directories are searched by. -/
structure Waiting (h : Host) (P : Set Bytes) (l : List Creation) : Prop where
  sane : h.Sane
  distinct : (l.map Creation.name).Nodup
  hashed : ∀ f ∈ l, ∀ x ∈ h.dcache.nodes, x.2.dName = f.name → x.2.dUnhashed = true
  new : ∀ f ∈ l, f.name ∈ P → ∀ x ∈ h.dcache.nodes, x.2.dName ≠ f.name
  searched : ∀ f ∈ l, f.parent ∈ P
  parents : ∀ u f v, l = u ++ f :: v → h.Directory f.parent ∨ ∃ d ∈ u, d.MakesParentOf f
  numbers : ∀ j < l.length, h.Unused (h.lastIno + 1 + BitVec.ofNat 32 j)
  length : l.length < 2 ^ 32

/-- The directories that frames name. -/
def parentsOf (fs : List Creation) : Set Bytes := {n | ∃ f ∈ fs, f.parent = n}

theorem Announced.waiting (ha : h.Announced fs) (hs : h.Sane) (hc : h.Clean fs)
    (hperm : l.Perm fs) (ho : ParentsFirst l) : h.Waiting (parentsOf fs) l where
  sane := hs
  distinct := (hperm.map _).nodup_iff.mpr ha.distinct
  hashed f hf x hx heq := by
    have hf := hperm.mem_iff.mp hf
    by_contra hhash
    exact ha.new f hf (hc.names f hf x hx heq (.inl (by simpa using hhash)))
  new f hf hP x hx heq := by
    have hf := hperm.mem_iff.mp hf
    exact ha.new f hf (hc.names f hf x hx heq (.inr hP))
  searched f hf := ⟨f, hperm.mem_iff.mp hf, rfl⟩
  parents u f v hl := by
    have hf : f ∈ fs := hperm.mem_iff.mp (hl ▸ List.mem_append_right u List.mem_cons_self)
    refine (ha.parents f hf).imp_right fun ⟨d, hd, hmakes⟩ => ⟨d, ?_, hmakes⟩
    subst hl
    rcases List.mem_append.mp (hperm.mem_iff.mpr hd) with hu | hv
    · exact hu
    rcases List.mem_cons.mp hv with rfl | hv
    · exact absurd hmakes (ho.2 d (List.mem_append_right u List.mem_cons_self))
    · have hlater := (List.pairwise_cons.mp (List.pairwise_append.mp ho.1).2.1).1 d hv
      exact absurd hmakes hlater
  numbers := hperm.length_eq ▸ hc.numbers
  length := by
    have hslots := ha.slots
    have : tableSize < 2 ^ 32 := by decide
    rw [hperm.length_eq]
    omega

namespace Waiting

variable {P : Set Bytes}

/-- No name of the list is a directory's yet. -/
theorem ne_of_directory (hp : h.Waiting P l) (hf : f ∈ l) (hP : n ∈ P) (hn : h.Directory n) :
    n ≠ f.name := by
  rintro rfl
  obtain ⟨k, hk, -⟩ := hn
  obtain ⟨x, hx, hname, -⟩ := exists_of_resolveParent hp.sane.held.nodup hk
  exact hp.new f hf hP x hx hname

/-- The first frame finds what it needs. -/
theorem linkable (hp : h.Waiting P (f :: l)) :
    ∃ dir di, h.Linkable (.server true) f.control dir di ∧ (h.inodes di).dead = false := by
  obtain ⟨dir, hpar, di, hi, hdir, hdead⟩ :=
    (hp.parents [] f l rfl).resolve_right fun ⟨d, hd, _⟩ => absurd hd List.not_mem_nil
  refine ⟨dir, di, ⟨hpar, hi, hdir, by simp [Env.server, hdir], ?_, ⟨?_, f.plain⟩, ?_, rfl⟩, hdead⟩
  · cases hl : h.dcache.dLookup dir f.control.name with
    | none => rfl
    | some d =>
        have hd := Dcache.mem_nodes_of_dLookup hp.sane.held.nodup hl
        obtain ⟨-, hhash, hname⟩ := Dcache.dLookup_some hl
        exact absurd (hp.hashed f List.mem_cons_self _ hd hname) (by simp [hhash])
  · intro hnil
    have hlen := f.length.1
    rw [hnil] at hlen
    cases hlen
  · exact Nat.le_trans f.length.2 (by decide)

section Step

variable {dir di : Ptr} {table : Table} {ip : Bytes}

/-- The directories that are there stay, and the new one is there too. -/
theorem directory_linked (hp : h.Waiting P (f :: l))
    (hl : h.Linkable (.server true) f.control dir di) (hP : n ∈ P)
    (hn : h.Directory n ∨ f.control.mode ≠ 0 ∧ f.name = n) :
    (h.linked dir di f.control table).Directory n := by
  have hs := hp.sane
  rcases hn with hn | ⟨hdir, rfl⟩
  · have hne := hp.ne_of_directory List.mem_cons_self hP hn
    obtain ⟨k, hk, i, hi, hdir, hdead⟩ := hn
    obtain ⟨x, hx, -, hptr⟩ := exists_of_resolveParent hs.held.nodup hk
    have hknew := hs.ne_of_mem (hptr ▸ Dcache.mem_ptrs_of_mem hx)
    refine ⟨k, (resolveParent_linked table hs hl hne).trans hk, i,
      (dInode?_linked hs hl hknew).trans hi, ?_⟩
    rw [inodes_linked (hs.inode_ne hi)]
    exact ⟨hdir, hdead⟩
  · refine ⟨h.nextPtr, resolveParent_link table hs hl (hp.new f List.mem_cons_self hP),
      h.nextPtr + 1, ?_, ?_⟩
    · rw [dInode?, dentryOf?_link hs hl]
      rfl
    · rw [inodes_link, isDir_newInode, dead_newInode]
      exact ⟨by rw [linkMode, if_pos hdir]; rfl, rfl⟩

/-- The numbers drawn later stay unused. -/
theorem unused_linked (hp : h.Waiting P (f :: l)) (hl : h.Linkable (.server true) f.control dir di)
    (hins : h.table.insert (h.linkEntry di f.control ip) = .ok table) {m : CInt}
    (hm : h.Unused m) (hne : m ≠ h.lastIno + 1) : (h.linked dir di f.control table).Unused m := by
  have hs := hp.sane
  refine ⟨fun x hx i hi => ?_, fun e he => ?_⟩
  · rcases (mem_nodes_linked hs hl).mp hx with rfl | hx
    · cases hi
      rw [number, inodes_link, iIno_newInode]
      exact hne.symm
    · obtain ⟨b, hb⟩ := Dcache.within_update (f := Dentry.get) (fun _ => ⟨_, rfl⟩) _ hx
      have hlt := hs.inode_lt _ hb i hi
      rw [number, inodes_linked (Nat.ne_of_lt (Nat.lt_succ_of_lt hlt))]
      exact hm.1 _ hb i hi
  · obtain ⟨e₀, hperm⟩ := Table.live_insert (fun _ => rfl) hins
    rcases List.mem_cons.mp (hperm.mem_iff.mp he) with rfl | he
    · exact hne.symm
    · exact hm.2 e he

/-- The first frame makes a link, and what comes of it is a matter of the
table. -/
theorem rdmaCreate_eq (hp : h.Waiting P (f :: l)) :
    ∃ dir di, h.Linkable (.server true) f.control dir di ∧
    (∃ g, h.makeLink (.server true) f.control = .ok (g, h.nextPtr, dir)) ∧
    h.rdmaCreate (.server true) f.buf f.ip =
      (h.table.insert (h.linkEntry di f.control f.ip)).map
        fun table => h.linked dir di f.control table := by
  have hs := hp.sane
  obtain ⟨dir, di, hl, hdead⟩ := hp.linkable
  obtain ⟨x, hx, hxi⟩ := Ready.exists_dentry hl.inode
  have hlt := hs.inode_lt x (Dcache.mem_nodes_of_node? hx) di hxi
  refine ⟨dir, di, hl, ⟨_, makeLink_eq hs.held.nodup hs.nextPtr_not_mem hlt hdead hl⟩, ?_⟩
  unfold rdmaCreate
  rw [f.parse]
  exact rdmaCreateParsed_eq hs.held.nodup hs.nextPtr_not_mem hlt hdead hl

/-- **One frame**: if the table has room it is handled, it adds what it
announces, and the others can be handled after it. -/
theorem step (hp : h.Waiting P (f :: l)) (hroom : h.table.live.length < tableSize) :
    ∃ g, h.rdmaCreate (.server true) f.buf f.ip = .ok g ∧ g.Waiting P l ∧
      (∀ s, h.Catalogued P s → g.Catalogued P (s.add f.control.announcement)) ∧
      g.table.live.length = h.table.live.length + 1 := by
  have hs := hp.sane
  obtain ⟨dir, di, hl, -, heq⟩ := hp.rdmaCreate_eq
  obtain ⟨table, hins⟩ := Table.exists_insert (f := h.linkEntry di f.control f.ip) hroom
  have hok : h.rdmaCreate (.server true) f.buf f.ip = .ok (h.linked dir di f.control table) := by
    rw [heq, hins]
    rfl
  have hnew := hp.new f List.mem_cons_self
  have hpar := hp.searched f List.mem_cons_self
  have hfree : h.Unused (h.lastIno + 1) := by
    simpa using hp.numbers 0 (Nat.succ_pos _)
  -- a dentry with the name of a later frame is an old one
  have hold : ∀ f' ∈ l, ∀ y ∈ (h.linked dir di f.control table).dcache.nodes,
      y.2.dName = f'.name → ∃ b, (y.1, y.2.withCount b) ∈ h.dcache.nodes := by
    intro f' hf' y hy heq
    rcases (mem_nodes_linked hs hl).mp hy with rfl | hy
    · exact absurd (List.mem_map.mpr ⟨f', hf', heq.symm⟩) (List.nodup_cons.mp hp.distinct).1
    · exact Dcache.within_update (f := Dentry.get) (fun _ => ⟨_, rfl⟩) _ hy
  refine ⟨_, hok, ⟨hs.step (e := .create true f.buf f.ip) hok, ?_, ?_, ?_, ?_, ?_, ?_, ?_⟩,
    fun s hcat => hcat.linked hs hl hpar hins hnew hfree, ?_⟩
  · exact (List.nodup_cons.mp hp.distinct).2
  · intro f' hf' y hy heq
    obtain ⟨b, hb⟩ := hold f' hf' y hy heq
    exact hp.hashed f' (List.mem_cons_of_mem f hf') (y.1, y.2.withCount b) hb heq
  · intro f' hf' hP y hy heq
    obtain ⟨b, hb⟩ := hold f' hf' y hy heq
    exact hp.new f' (List.mem_cons_of_mem f hf') hP (y.1, y.2.withCount b) hb heq
  · exact fun f' hf' => hp.searched f' (List.mem_cons_of_mem f hf')
  · intro u f' v hl'
    have hP : f'.parent ∈ P := hp.searched f' (by rw [hl']; simp)
    rcases hp.parents (f :: u) f' v (by rw [hl']; rfl) with hdir | ⟨d, hd, hmakes⟩
    · exact .inl (hp.directory_linked hl hP (.inl hdir))
    · rcases List.mem_cons.mp hd with rfl | hd
      · exact .inl (hp.directory_linked hl hP (.inr hmakes))
      · exact .inr ⟨d, hd, hmakes⟩
  · intro j hj
    have hnum : h.lastIno + 1 + 1 + BitVec.ofNat 32 j =
        h.lastIno + 1 + BitVec.ofNat 32 (j + 1) := by
      rw [Nat.add_comm, BitVec.ofNat_add, BitVec.add_assoc]
      rfl
    show (h.linked dir di f.control table).Unused (h.lastIno + 1 + 1 + BitVec.ofNat 32 j)
    rw [hnum]
    refine hp.unused_linked hl hins (hp.numbers (j + 1) (Nat.succ_lt_succ hj)) fun heq => ?_
    have hlen : j + 1 < 2 ^ 32 := by
      have := hp.length
      rw [List.length_cons] at this
      omega
    have hnat := congrArg BitVec.toNat heq
    rw [BitVec.toNat_add, BitVec.toNat_ofNat, Nat.mod_eq_of_lt hlen] at hnat
    have hbound := (h.lastIno + 1).isLt
    omega
  · have := hp.length
    rw [List.length_cons] at this
    omega
  · obtain ⟨e, hperm⟩ := Table.live_insert (fun _ => rfl) hins
    exact hperm.length_eq

end Step

/-- The frames that the table has room for are handled, each adding what it
announces, and the others can be handled after them. -/
theorem createAll (hp : h.Waiting P (l₁ ++ l₂))
    (hroom : h.table.live.length + l₁.length ≤ tableSize) :
    ∃ g, h.createAll l₁ = .ok g ∧ g.Waiting P l₂ ∧
      (∀ s, h.Catalogued P s →
        g.Catalogued P (l₁.foldl (fun s f => s.add f.control.announcement) s)) ∧
      g.table.live.length = h.table.live.length + l₁.length := by
  induction l₁ generalizing h with
  | nil => exact ⟨h, rfl, hp, fun _ hcat => hcat, rfl⟩
  | cons f l₁ ih =>
      rw [List.length_cons] at hroom
      obtain ⟨g, hok, hp', hcat, hlive⟩ := hp.step (by omega)
      obtain ⟨r, hr, hpr, hcat', hlive'⟩ := ih hp' (by omega)
      refine ⟨r, ?_, hpr, fun s hs => ?_, ?_⟩
      · unfold Host.createAll
        rw [hok]
        exact hr
      · exact hcat' _ (hcat s hs)
      · rw [hlive', hlive, List.length_cons]
        omega

/-- No frame stands before one whose name it needs. -/
theorem respects (hp : h.Waiting P l) : Reorder.Respects (fun d f => d.name = f.parent) l := by
  have hsplit : ∀ u f v, l = u ++ f :: v → ∀ d ∈ v, d.name ≠ f.parent := by
    intro u f v hl d hd hname
    have hdl : d ∈ l := hl ▸ List.mem_append_right u (List.mem_cons_of_mem f hd)
    rcases hp.parents u f v hl with hdir | ⟨d', hd', -, hname'⟩
    · have hf : f ∈ l := hl ▸ List.mem_append_right u List.mem_cons_self
      exact hp.ne_of_directory hdl (hp.searched f hf) hdir hname.symm
    · have hdist := hp.distinct
      rw [hl, List.map_append, List.map_cons] at hdist
      exact (List.nodup_append.mp hdist).2.2 _ (List.mem_map_of_mem hd') _
        (List.mem_cons_of_mem _ (List.mem_map_of_mem hd)) (hname'.trans hname.symm)
  clear hp
  induction l with
  | nil => exact List.Pairwise.nil
  | cons f l ih =>
      refine List.pairwise_cons.mpr ⟨hsplit [] f l rfl, ih fun u f' v hl => ?_⟩
      exact hsplit (f :: u) f' v (by rw [hl]; rfl)

end Waiting

/-- **The order of delivery does not matter**: if nothing is left over that
could be taken for what the frames make, any two orders that put directories
first are handled and end in the same paths with the same records. -/
theorem createAll_order (hs : h.Sane) (ha : h.Announced fs) (hc : h.Clean fs)
    (hp₁ : l₁.Perm fs) (hp₂ : l₂.Perm fs) (ho₁ : ParentsFirst l₁) (ho₂ : ParentsFirst l₂) :
    ∃ g₁ g₂, h.createAll l₁ = .ok g₁ ∧ h.createAll l₂ = .ok g₂ ∧
      (∀ path b, g₁.Names path b ↔ g₂.Names path b) ∧
      ∀ path r, g₁.Records path r ↔ g₂.Records path r := by
  have hw₁ := ha.waiting hs hc hp₁ ho₁
  have hw₂ := ha.waiting hs hc hp₂ ho₂
  have hrun : ∀ l, l.Perm fs → h.Waiting (parentsOf fs) l → ∃ g, h.createAll l = .ok g ∧
      g.Catalogued (parentsOf fs)
        (l.foldl (fun s f => s.add f.control.announcement) h.catalog) := by
    intro l hperm hw
    have hroom := ha.slots
    rw [← hperm.length_eq] at hroom
    have hw' : h.Waiting (parentsOf fs) (l ++ []) := by rwa [List.append_nil]
    obtain ⟨g, hok, -, hcat, -⟩ := hw'.createAll hroom
    exact ⟨g, hok, hcat _ ⟨rfl, rfl, fun _ _ => rfl⟩⟩
  obtain ⟨g₁, hok₁, hcat₁⟩ := hrun l₁ hp₁ hw₁
  obtain ⟨g₂, hok₂, hcat₂⟩ := hrun l₂ hp₂ hw₂
  have hcat : l₁.foldl (fun s f => s.add f.control.announcement) h.catalog =
      l₂.foldl (fun s f => s.add f.control.announcement) h.catalog := by
    refine Reorder.foldl_eq hw₁.distinct.of_map (hp₁.trans hp₂.symm) hw₁.respects
      hw₂.respects (fun a ha b hb hne hab hba s => ?_) _
    exact Catalog.add_comm (fun heq => hne (List.inj_on_of_nodup_map hw₁.distinct ha hb heq))
      hab hba
  rw [hcat] at hcat₁
  refine ⟨g₁, g₂, hok₁, hok₂, fun path b => ?_, fun path r => ?_⟩
  · exact Set.ext_iff.mp (hcat₁.names.symm.trans hcat₂.names) (path, b)
  · exact Set.ext_iff.mp (hcat₁.records.symm.trans hcat₂.records) (path, r)

end Host

/-! ## examples -/

/-- The frame that a host sends for a new file. -/
def announce (ino : CInt) (name : Bytes) (inoParent : CInt) (parent : Bytes) (isDir : Bool)
    (hrow : FitsRow name ∧ FitsRow parent) (hino : ino.msb = false ∧ inoParent.msb = false)
    (hlength : 1 ≤ name.length ∧ name.length ≤ 15) (hplain : 47 ∉ name ∧ 0 ∉ name) : Creation where
  buf := wjfsClientCreate ino name inoParent parent isDir
  ip := []
  control := ⟨ino, name, inoParent, parent, string2int (modeFlag isDir)⟩
  tag := rfl
  parse := parseControl_create hrow.1 hrow.2 hino.1 hino.2
  length := hlength
  plain := hplain

/-- `"CR 7 d 1 / 1111"`. -/
def announceD : Creation :=
  announce 7 [100] 1 Host.rootName true (by decide) (by decide) (by decide) (by decide)

/-- `"CR 8 x 7 d 0000"`. -/
def announceXInD : Creation :=
  announce 8 [120] 7 [100] false (by decide) (by decide) (by decide) (by decide)

/-- `"CR 9 y 1 / 0000"`. -/
def announceY : Creation :=
  announce 9 [121] 1 Host.rootName false (by decide) (by decide) (by decide) (by decide)

/-- A fresh mount. -/
def freshMount : Host := Host.mounted 0 0o755 0 Table.initial

/-- A directory, a file in it and another file come in two orders. -/
theorem createAll_order_fresh :
    ∃ g₁ g₂, freshMount.createAll [announceD, announceXInD, announceY] = .ok g₁ ∧
      freshMount.createAll [announceY, announceD, announceXInD] = .ok g₂ ∧
      (∀ path b, g₁.Names path b ↔ g₂.Names path b) ∧
      ∀ path r, g₁.Records path r ↔ g₂.Records path r := by
  refine Host.createAll_order (Host.sane_mounted ..) ⟨?_, ?_, ?_, ?_⟩ ⟨?_, ?_⟩
    (List.Perm.refl [announceD, announceXInD, announceY]) ?_ ?_ ?_
  · decide
  · decide
  · decide
  · decide +kernel
  · decide
  · decide +kernel
  · show ([announceY] ++ [announceD, announceXInD]).Perm ([announceD, announceXInD] ++ [announceY])
    exact List.perm_append_comm
  · decide +kernel
  · decide

/-- A link `o` gets the number 2, and then the counter wraps around to 1. -/
def wrapped : List Event :=
  [.create true (wjfsClientCreate 5 [111] 1 Host.rootName false) [], .elsewhere 1]

/-- `"CR 7 a 1 / 0000"`. -/
def announceA : Creation :=
  announce 7 [97] 1 Host.rootName false (by decide) (by decide) (by decide) (by decide)

/-- `"CR 8 b 1 / 0000"`. -/
def announceB : Creation :=
  announce 8 [98] 1 Host.rootName false (by decide) (by decide) (by decide) (by decide)

namespace Host

/-- The numbers are recorded for a name in the root. -/
def RecordsInRoot (g : Host) (n : Bytes) (r : CInt × CInt) : Prop :=
  ∃ x ∈ g.dcache.nodes, x.1 = some g.root ∧ x.2.positive = true ∧ x.2.dName = n ∧
    g.recorded? x.2.ptr = some r

instance (g : Host) (n : Bytes) (r : CInt × CInt) : Decidable (g.RecordsInRoot n r) := by
  unfold RecordsInRoot
  infer_instance

theorem records_singleton {g : Host} {n : Bytes} {r : CInt × CInt}
    (hroot : g.root ∈ g.dcache.ptrs) : g.Records [n] r ↔ g.RecordsInRoot n r := by
  constructor
  · rintro ⟨k, ha, hr⟩
    obtain ⟨p, d, hp, hd, hpos, hname, rfl⟩ := AtPath.snoc_inv (show g.AtPath ([] ++ [n]) k from ha)
    cases hp.nil_inv
    exact ⟨_, hd, rfl, hpos, hname, hr⟩
  · rintro ⟨⟨_, d⟩, hd, rfl, hpos, rfl, hr⟩
    exact ⟨d.ptr, .child (.root hroot) hd hpos, hr⟩

end Host

/-- The first of the two frames gets the number of `o`, and a client that asks
for its file gets the one that `o` stands for. -/
theorem first_frame_takes_number : ∃ h g₁ g₂ : Host,
    freshMount.play wrapped = .ok h ∧ h.Announced [announceA, announceB] ∧
    ParentsFirst [announceA, announceB] ∧ ParentsFirst [announceB, announceA] ∧
    h.createAll [announceA, announceB] = .ok g₁ ∧ h.createAll [announceB, announceA] = .ok g₂ ∧
    g₁.Records [[97]] (5, 1) ∧ ¬ g₂.Records [[97]] (5, 1) := by
  have hplay : (freshMount.play wrapped).toOption.map (fun h =>
      decide ((∀ f ∈ [announceA, announceB], ¬ h.LiveName f.name) ∧
        (∀ f ∈ [announceA, announceB], h.Directory f.parent) ∧
        h.table.live.length + 2 ≤ tableSize)) = some true := by
    decide +kernel
  have hfirst : ((freshMount.play wrapped).bind (·.createAll [announceA, announceB])).toOption.map
      (fun g => (decide (g.root ∈ g.dcache.ptrs), decide (g.RecordsInRoot [97] (5, 1)))) =
      some (true, true) := by
    decide
  have hsecond : ((freshMount.play wrapped).bind (·.createAll [announceB, announceA])).toOption.map
      (fun g => (decide (g.root ∈ g.dcache.ptrs), decide (g.RecordsInRoot [97] (5, 1)))) =
      some (true, false) := by
    decide +kernel
  obtain ⟨h, hp, hval⟩ := exists_of_toOption_map hplay
  obtain ⟨hnew, hdirs, hslots⟩ := of_decide_eq_true hval
  rw [hp] at hfirst hsecond
  obtain ⟨g₁, hg₁, htold₁⟩ := exists_of_toOption_map hfirst
  obtain ⟨g₂, hg₂, htold₂⟩ := exists_of_toOption_map hsecond
  simp only [Prod.mk.injEq, decide_eq_true_eq, decide_eq_false_iff_not] at htold₁ htold₂
  refine ⟨h, g₁, g₂, hp, ⟨by decide, hnew, fun f hf => .inl (hdirs f hf), hslots⟩, by decide,
    by decide, hg₁, hg₂, (Host.records_singleton htold₁.1).mpr htold₁.2, fun hr => ?_⟩
  exact htold₂.2 ((Host.records_singleton htold₂.1).mp hr)

end Wjfs
