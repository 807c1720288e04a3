import Wjfs.Delivery
import Wjfs.Reach

/-!
# Wjfs.Slots

Does every link get an entry of the table?

`rdma_create` makes the link first and looks for a free entry afterwards.  The
loop of the search may end at index 1024, and the stores behind it use the
index all the same.  `link_on_record_iff` says for every state of a host that
a link which was made is recorded, and nothing stored past the array, exactly
while fewer than 1024 entries are used.  Nothing keeps a peer from announcing
one file more: `no_slot_left`.
-/

namespace Wjfs

namespace Host

variable {h h' g : Host} {env : Env} {c : Control} {new parent : Ptr} {buf : Bytes}

/-- The new link is on record: a used entry has its numbers and those of the
file it stands for, so that it is not taken for the host's own, the clients
find a file of the peer for it and a remove frame finds an entry. -/
structure OnRecord (h : Host) (c : Control) (new parent : Ptr) (i p : Inode) : Prop where
  inode : h.inodeOf? new = some i
  parentInode : h.inodeOf? parent = some p
  entry : ∃ e ∈ h.table.live, e.localIno = i.iIno ∧ e.localParentIno = p.iIno ∧
    e.rdmaIno = c.ino ∧ e.rdmaParentIno = c.inoParent
  notMine : h.isMyFile new = .ok false
  asked : (Table.findUsed (Table.localMatch i.iIno p.iIno) h.table.entries).isSome = true
  removed : (Table.findUsed (Table.rdmaMatch c.ino c.inoParent) h.table.entries).isSome = true

/-- One used entry with these numbers is all that it takes. -/
theorem OnRecord.of_entry {i p : Inode} (hi : h.inodeOf? new = some i)
    (hp : h.inodeOf? parent = some p) (he : ∃ e ∈ h.table.live, e.localIno = i.iIno ∧
      e.localParentIno = p.iIno ∧ e.rdmaIno = c.ino ∧ e.rdmaParentIno = c.inoParent) :
    h.OnRecord c new parent i p := by
  refine ⟨hi, hp, he, ?_, ?_, ?_⟩
  all_goals obtain ⟨e, he, hloc, hpar, hino, hinoParent⟩ := he
  · have hmine : ¬ h.table.isMyFile i.iIno = true := fun hall =>
      Table.isMyFile_iff.mp hall e he hloc
    rw [Host.isMyFile, hi]
    simpa using hmine
  · rw [Table.findUsed_eq, List.find?_isSome]
    exact ⟨e, he, by simp [Table.localMatch, hloc, hpar]⟩
  · rw [Table.findUsed_eq, List.find?_isSome]
    exact ⟨e, he, by simp [Table.rdmaMatch, hino, hinoParent]⟩

/-- **Every link gets a slot while there is one**: for every state of a host
and every create frame whose link is made, the stores are at an index of the
array and the link is on record afterwards exactly if fewer than 1024 entries
are used. -/
theorem link_on_record_iff (hr : Reach h) (hparse : parseControl buf = .ok c)
    (hmake : h.makeLink env c = .ok (g, new, parent)) (ip : Bytes) :
    (h.table.slot < tableSize ∧ ∃ h', h.rdmaCreate env buf ip = .ok h' ∧
      ∃ i p, h'.OnRecord c new parent i p) ↔ h.table.live.length < tableSize := by
  constructor
  · exact fun hslot => Table.slot_lt_iff.mp hslot.1
  · intro hroom
    obtain ⟨dir, hm⟩ := makeLink_spec hr.sane hmake
    obtain ⟨t, hins⟩ := Table.exists_insert
      (f := fun e => e.fill c.name (h.lastIno + 1) c.ino (h.number dir) c.inoParent ip) hroom
    have hok : h.rdmaCreate env buf ip = .ok { g with table := t } := by
      rw [hm.rdmaCreate_eq hparse hmake, hins]
      rfl
    obtain ⟨e, hperm⟩ := Table.live_insert (fun _ => rfl) hins
    obtain ⟨i, hi, hnum⟩ := hm.inode
    obtain ⟨p, hp, hpar⟩ := hm.parentNumber
    refine ⟨Table.slot_lt_iff.mpr hroom, _, hok, i, p, .of_entry hi hp ?_⟩
    exact ⟨_, hperm.mem_iff.mpr List.mem_cons_self, hnum.symm, hpar.symm, rfl, rfl⟩

end Host

/-- The first link of a fresh mount. -/
theorem link_on_record_first : ∃ g new parent,
    freshMount.makeLink (.server true) announceD.control = .ok (g, new, parent) ∧
      ∃ h', freshMount.rdmaCreate (.server true) announceD.buf [] = .ok h' ∧
        ∃ i p, h'.OnRecord announceD.control new parent i p := by
  have hmake : (freshMount.makeLink (.server true) announceD.control).toOption.map
      (fun _ => ()) = some () := by decide
  obtain ⟨⟨g, new, parent⟩, hmake, -⟩ := exists_of_toOption_map hmake
  have hroom : freshMount.table.live.length < tableSize := by
    show (Table.clear _).live.length < tableSize
    rw [Table.live_clear]
    decide
  exact ⟨g, new, parent, hmake, ((Host.link_on_record_iff (.mount ..) announceD.parse hmake []).mpr
    hroom).2⟩

/-! ## one link too many -/

/-- The frame of a file in the root that has a number for its name. -/
def numbered (j : Fin 1025) : Creation :=
  announce (j.val : CInt) (decimal j) 1 Host.rootName false
    ⟨fitsRow_iff.mpr ⟨Nat.lt_succ_of_le (Nat.le_trans (length_decimal_le (by omega)) (by decide)),
      isSep_decimal j⟩, by decide⟩
    ⟨by simp [BitVec.msb_eq_decide]; omega, rfl⟩
    ⟨List.length_pos_iff.mpr (decimal_ne_nil j),
      Nat.le_trans (length_decimal_le (by omega)) (by decide)⟩
    ⟨fun h => by simpa using digit_of_mem_decimal h, fun h => by simpa using digit_of_mem_decimal h⟩

/-- As many of them as the table has entries. -/
def fullTable : List Creation := (List.finRange 1024).map fun j => numbered j.castSucc

/-- And one more. -/
def oneMore : Creation := numbered (Fin.last 1024)

theorem fullTable_append : fullTable ++ [oneMore] = (List.finRange 1025).map numbered := by
  rw [fullTable, oneMore, List.finRange_succ_last (n := 1024), List.map_append, List.map_map]
  simp only [Function.comp_def, List.map_cons, List.map_nil]

theorem length_fullTable : fullTable.length = tableSize := by
  rw [fullTable, List.length_map, List.length_finRange, tableSize]

/-- No two of the files have the same name. -/
theorem numbered_name_injective : Function.Injective fun j => (numbered j).name := by
  intro j j' heq
  have hval : (j.val : CInt) = (j'.val : CInt) := by
    rw [← string2int_decimal j.val, ← string2int_decimal j'.val]
    exact congrArg string2int heq
  have hnat := congrArg BitVec.toNat hval
  simp only [BitVec.natCast_eq_ofNat, BitVec.toNat_ofNat] at hnat
  omega

/-- A fresh mount can take them one after the other. -/
theorem waiting_numbered : freshMount.Waiting Set.univ (fullTable ++ [oneMore]) := by
  have hnodes : ∀ x ∈ freshMount.dcache.nodes, x = (none, Host.rootDentry 0 1) := by
    decide
  rw [fullTable_append]
  have hnew : ∀ f : Creation, ∀ x ∈ freshMount.dcache.nodes, x.2.dName ≠ f.name := by
    intro f x hx heq
    have hslash : 47 ∉ f.name := f.plain.1
    rw [← heq, hnodes x hx] at hslash
    exact hslash (List.mem_singleton_self 47)
  refine ⟨Host.sane_mounted .., ?_, fun f _ x hx heq => absurd heq (hnew f x hx),
    fun f _ _ => hnew f, fun _ _ => trivial, fun u f v hl => ?_, fun j hj => ?_, ?_⟩
  · rw [List.map_map]
    exact (List.nodup_finRange _).map numbered_name_injective
  · have hf : f ∈ (List.finRange 1025).map numbered := hl ▸ by simp
    obtain ⟨j, -, rfl⟩ := List.mem_map.mp hf
    have hroot : freshMount.Directory Host.rootName := by decide
    exact .inl hroot
  · rw [List.length_map, List.length_finRange] at hj
    refine ⟨fun x hx i _ heq => ?_, ?_⟩
    · have hnum : (1 : CInt) = 1 + 1 + BitVec.ofNat 32 j := heq
      have hnat := congrArg BitVec.toNat hnum
      simp at hnat
      omega
    · show ∀ e ∈ (Table.clear _).live, _
      simp
  · simp

/-- **No slot is left.**  A peer announces 1025 files to a fresh mount.  All are
linked, and the stores for the last one go past the table. -/
theorem no_slot_left : ∃ h g new parent, freshMount.createAll fullTable = .ok h ∧
    h.makeLink (.server true) oneMore.control = .ok (g, new, parent) ∧ h.table.slot = tableSize ∧
    h.rdmaCreate (.server true) oneMore.buf [] = .error .outOfBounds := by
  have hempty : freshMount.table.live.length = 0 := by
    show (Table.clear _).live.length = 0
    rw [Table.live_clear, List.length_nil]
  have hroom : freshMount.table.live.length + fullTable.length ≤ tableSize := by
    rw [hempty, length_fullTable, Nat.zero_add]
  obtain ⟨h, hok, hw, -, hlive⟩ := waiting_numbered.createAll hroom
  rw [hempty, Nat.zero_add, length_fullTable] at hlive
  have hslot : tableSize ≤ h.table.slot := by
    rw [← Nat.not_lt, Table.slot_lt_iff, hlive]
    exact Nat.lt_irrefl _
  have hle : h.table.slot ≤ tableSize := by
    rw [Table.slot, ← h.table.length_eq]
    exact List.findIdx_le_length
  obtain ⟨dir, di, -, ⟨g, hmake⟩, heq⟩ := hw.rdmaCreate_eq
  rw [Table.insert_of_full hslot] at heq
  exact ⟨h, g, h.nextPtr, dir, hok, hmake, Nat.le_antisymm hle hslot, heq⟩

end Wjfs
