import Mathlib.Data.Finmap
import Wjfs.Delivery

/-!
# Wjfs.Mapping

The mapping table as a finite map.

What the table is for: it says of a file of the peer, given by its number and
that of its directory, which link stands for it.  The map `LinkMap` is just
that, with `insert` for a create frame and `erase` for a remove frame.  The
table keeps it in an array of 1024 entries with a flag each, fills the first
entry that is free and frees the first one that matches.

`Table.Refines` ties the two together, and both operations keep it.  A run is
`Mapped`: a host together with the map that its frames have built up, as long as
no frame announces a key that is live, a number that is in use or one link more
than there are entries.  `table_refines_map` collects what holds in every state
of such a run.
-/

namespace Wjfs

/-- The numbers of a file of the peer and of its directory. -/
abbrev LinkKey := CInt × CInt

/-- The links by what they stand for: the number of the link and that of the
directory it is in. -/
abbrev LinkMap := Finmap fun _ : LinkKey => CInt × CInt

namespace Entry

/-- What the link stands for. -/
def key (e : Entry) : LinkKey := (e.rdmaIno, e.rdmaParentIno)

/-- The link. -/
def value (e : Entry) : CInt × CInt := (e.localIno, e.localParentIno)

end Entry

/-- The key in a frame. -/
def Control.key (c : Control) : LinkKey := (c.ino, c.inoParent)

namespace Table

variable {t t' : Table} {m : LinkMap} {k : LinkKey} {v : CInt × CInt} {f : Entry → Entry}
  {e : Entry}

theorem rdmaMatch_iff : rdmaMatch k.1 k.2 e = true ↔ e.key = k := by
  rw [rdmaMatch, Bool.and_eq_true, beq_iff_eq, beq_iff_eq, Entry.key, Prod.ext_iff]

/-- The used entries are the map, each key and each number of a link being there
once. -/
structure Refines (t : Table) (m : LinkMap) : Prop where
  entries : ∀ k v, (∃ e ∈ t.live, e.key = k ∧ e.value = v) ↔ m.lookup k = some v
  keys : (t.live.map Entry.key).Nodup
  numbers : (t.live.map Entry.localIno).Nodup

/-- The used entries with a property stay where they are and as they are. -/
def Keeps (t t' : Table) (P : Entry → Prop) : Prop :=
  ∀ (j : Nat) (e : Entry), t.entries[j]? = some e → e.used = true → P e → t'.entries[j]? = some e

/-! ## the array -/

/-- Filling the first free entry changes no used one. -/
theorem keeps_insert (h : t.insert f = .ok t') : t.Keeps t' fun _ => True := by
  intro j e he hu _
  have hne : t.slot ≠ j := by
    rintro rfl
    obtain ⟨hlt, rfl⟩ := List.getElem?_eq_some_iff.mp he
    have hfree : (!t.entries[t.slot].used) = true :=
      List.findIdx_getElem (p := fun e : Entry => !e.used) (w := hlt)
    rw [hu] at hfree
    cases hfree
  rw [(entries_insert h).2, List.getElem?_modify_ne _ _ hne, he]

/-- Freeing the first entry that matches changes none that does not. -/
theorem keeps_release (t : Table) (k : LinkKey) :
    t.Keeps (t.release k.1 k.2) fun e => e.key ≠ k := by
  intro j e he _ hkey
  have hne : t.matchSlot k.1 k.2 ≠ j := by
    rintro rfl
    exact hkey (rdmaMatch_iff.mp (getElem_matchSlot he).2)
  rw [entries_release, List.getElem?_modify_ne _ _ hne, he]

/-! ## the map -/

namespace Refines

/-- A table without used entries is the empty map. -/
theorem empty (h : t.live = []) : t.Refines ∅ := by
  constructor <;> simp [h]

theorem mem_iff (hr : t.Refines m) : k ∈ m ↔ ∃ e ∈ t.live, e.key = k := by
  rw [Finmap.mem_iff]
  simp only [← hr.entries]
  exact ⟨fun ⟨_, e, he, hk, _⟩ => ⟨e, he, hk⟩, fun ⟨e, he, hk⟩ => ⟨_, e, he, hk, rfl⟩⟩

/-- There are as many used entries as links. -/
theorem length_live (hr : t.Refines m) : t.live.length = m.keys.card := by
  have hkeys : m.keys = (t.live.map Entry.key).toFinset := by
    ext k
    rw [Finmap.mem_keys, hr.mem_iff]
    simp
  rw [hkeys, List.toFinset_card_of_nodup hr.keys, List.length_map]

/-- The numbers of the links are the range of the map. -/
theorem isMyFile_iff (hr : t.Refines m) {n : CInt} :
    t.isMyFile n = false ↔ ∃ k v, m.lookup k = some v ∧ v.1 = n := by
  rw [← Bool.not_eq_true, Table.isMyFile_iff]
  simp only [not_forall, not_not, ← hr.entries]
  constructor
  · rintro ⟨e, he, rfl⟩
    exact ⟨e.key, e.value, ⟨e, he, rfl, rfl⟩, rfl⟩
  · rintro ⟨_, _, ⟨e, he, rfl, rfl⟩, rfl⟩
    exact ⟨e, he, rfl⟩

/-- Filling an entry inserts a link. -/
theorem insert (hr : t.Refines m) (hf : ∀ e, (f e).used = true ∧ (f e).key = k ∧ (f e).value = v)
    (hk : k ∉ m) (hv : ∀ k' v', m.lookup k' = some v' → v'.1 ≠ v.1) (h : t.insert f = .ok t') :
    t'.Refines (m.insert k v) := by
  obtain ⟨e, hperm⟩ := live_insert (fun e => (hf e).1) h
  obtain ⟨-, hkey, hval⟩ := hf e
  have hnum : (f e).localIno = v.1 := congrArg Prod.fst hval
  refine ⟨fun k' v' => ?_, ?_, ?_⟩
  · simp only [hperm.mem_iff, List.mem_cons, exists_eq_or_imp, hkey, hval, hr.entries]
    by_cases heq : k' = k
    · subst heq
      simp [Finmap.lookup_eq_none.mpr hk]
    · simp [Finmap.lookup_insert_of_ne m heq, Ne.symm heq]
  · rw [(hperm.map _).nodup_iff, List.map_cons, List.nodup_cons, hkey]
    exact ⟨fun hmem => hk (hr.mem_iff.mpr (List.mem_map.mp hmem)), hr.keys⟩
  · rw [(hperm.map _).nodup_iff, List.map_cons, List.nodup_cons, hnum]
    refine ⟨fun hmem => ?_, hr.numbers⟩
    obtain ⟨e', he', hn⟩ := List.mem_map.mp hmem
    exact hv e'.key e'.value ((hr.entries _ _).mp ⟨e', he', rfl, rfl⟩) hn

/-- A key that is not in the map is not found. -/
theorem find?_of_not_mem (hr : t.Refines m) (hk : k ∉ m) :
    t.live.find? (rdmaMatch k.1 k.2) = none := by
  rw [List.find?_eq_none]
  exact fun e he hmatch => hk (hr.mem_iff.mpr ⟨e, he, rdmaMatch_iff.mp hmatch⟩)

/-- It frees nothing. -/
theorem release_of_not_mem (hr : t.Refines m) (hk : k ∉ m) : t.release k.1 k.2 = t :=
  eq_of_entries (release_of_none (hr.find?_of_not_mem hk))

/-- Freeing an entry erases a link. -/
theorem release (hr : t.Refines m) (k : LinkKey) : (t.release k.1 k.2).Refines (m.erase k) := by
  by_cases hk : k ∈ m
  swap
  · rw [hr.release_of_not_mem hk]
    refine ⟨fun k' v' => ?_, hr.keys, hr.numbers⟩
    rw [hr.entries]
    by_cases heq : k' = k
    · subst heq
      simp [Finmap.lookup_eq_none.mpr hk]
    · rw [Finmap.lookup_erase_ne heq]
  obtain ⟨e₀, he₀, hkey₀⟩ := hr.mem_iff.mp hk
  obtain ⟨e, hfind⟩ : ∃ e, t.live.find? (rdmaMatch k.1 k.2) = some e := by
    rw [← Option.isSome_iff_exists, List.find?_isSome]
    exact ⟨e₀, he₀, rdmaMatch_iff.mpr hkey₀⟩
  have hkey : e.key = k := rdmaMatch_iff.mp (List.find?_some hfind)
  have hperm := live_release hfind
  have hkeys := (hperm.map Entry.key).nodup_iff.mp hr.keys
  rw [List.map_cons, List.nodup_cons, hkey] at hkeys
  refine ⟨fun k' v' => ?_, hkeys.2, ?_⟩
  · by_cases heq : k' = k
    · subst heq
      rw [Finmap.lookup_erase]
      refine ⟨fun ⟨e', he', hk', _⟩ => absurd (List.mem_map.mpr ⟨e', he', hk'⟩) hkeys.1,
        fun h => (by cases h)⟩
    · rw [Finmap.lookup_erase_ne heq, ← hr.entries]
      simp [hperm.mem_iff, hkey, Ne.symm heq]
  · have hnums := (hperm.map Entry.localIno).nodup_iff.mp hr.numbers
    rw [List.map_cons, List.nodup_cons] at hnums
    exact hnums.2

end Refines

end Table

namespace Host

variable {h h' g : Host} {env : Env} {c : Control} {new parent : Ptr} {i p : Inode}
  {m : LinkMap} {buf ip : Bytes}

/-! ## runs -/

/-- A create frame that makes a link which is new to the map: nothing is linked
under its key, its number is not in use, and there are fewer than 1024 links. -/
structure Inserts (env : Env) (h : Host) (m : LinkMap) (c : Control) (g : Host)
    (new parent : Ptr) (i p : Inode) : Prop where
  made : h.makeLink env c = .ok (g, new, parent)
  inode : g.inodeOf? new = some i
  parentInode : g.inodeOf? parent = some p
  key : c.key ∉ m
  fresh : ∀ k v, m.lookup k = some v → v.1 ≠ i.iIno
  room : m.keys.card < tableSize

/-- A host after frames of the peer, and the map that they have built up.
Between the frames anything may happen that leaves the table alone, as the calls
of the host's own processes do. -/
inductive Mapped : Host → LinkMap → Prop
  | mount (lastIno : CInt) (perm : BitVec 12) (nextPtr : Ptr) (table : Table) :
      Mapped (mounted lastIno perm nextPtr table) ∅
  | create {h h' g : Host} {m : LinkMap} {env : Env} {buf ip : Bytes} {c : Control}
      {new parent : Ptr} {i p : Inode} : Mapped h m → parseControl buf = .ok c →
      h.Inserts env m c g new parent i p → h.rdmaCreate env buf ip = .ok h' →
      Mapped h' (m.insert c.key (i.iIno, p.iIno))
  | remove {h h' : Host} {m : LinkMap} {buf : Bytes} {c : Control} : Mapped h m →
      parseControl buf = .ok c → h.rdmaRemove buf = .ok h' → Mapped h' (m.erase c.key)
  | between {h h' : Host} {m : LinkMap} : Mapped h m → h'.Sane → h'.table = h.table → Mapped h' m

/-- Such a frame is handled: it fills an entry with the numbers of the link. -/
theorem Inserts.rdmaCreate (hi : h.Inserts env m c g new parent i p) (hs : h.Sane)
    (hr : h.table.Refines m) (hparse : parseControl buf = .ok c) (ip : Bytes) :
    ∃ t, h.rdmaCreate env buf ip = .ok { g with table := t } ∧ g.Sane ∧
      t.Refines (m.insert c.key (i.iIno, p.iIno)) ∧ h.table.Keeps t fun _ => True := by
  obtain ⟨dir, hm⟩ := makeLink_spec hs hi.made
  have hnum : i.iIno = h.lastIno + 1 := by
    obtain ⟨j, hj, hnum⟩ := hm.inode
    cases hi.inode.symm.trans hj
    exact hnum
  have hpar : p.iIno = h.number dir := by
    obtain ⟨j, hj, hpar⟩ := hm.parentNumber
    cases hi.parentInode.symm.trans hj
    exact hpar
  have hroom : h.table.live.length < tableSize := by
    rw [hr.length_live]
    exact hi.room
  obtain ⟨t, hins⟩ := Table.exists_insert
    (f := fun e => e.fill c.name (h.lastIno + 1) c.ino (h.number dir) c.inoParent ip) hroom
  refine ⟨t, ?_, hm.grown.sane, ?_, Table.keeps_insert hins⟩
  · rw [hm.rdmaCreate_eq hparse hi.made, hins]
    rfl
  · refine hr.insert (fun e => ⟨rfl, rfl, ?_⟩) hi.key hi.fresh hins
    rw [hnum, hpar]
    rfl

/-- A remove frame is handled, too. -/
theorem Sane.rdmaRemove (hs : h.Sane) (hparse : parseControl buf = .ok c) :
    ∃ h', h.rdmaRemove buf = .ok h' ∧ h'.Sane ∧ h'.table = h.table.release c.ino c.inoParent := by
  obtain ⟨h', hok⟩ : ∃ h', h.rdmaRemoveParsed c = .ok h' := by
    obtain ⟨-, hok⟩ | ⟨p, dir, d, i, -, hok⟩ := rdmaRemoveParsed_inv hs.held.nodup hs.dirs c
    · exact ⟨_, hok⟩
    · exact ⟨_, hok⟩
  refine ⟨h', ?_, (rdmaRemoveParsed_fades hs hok).sane (hs.setTable _), rdmaRemoveParsed_table hok⟩
  rw [Host.rdmaRemove, hparse]
  exact hok

/-- The remove frame of a key that is not in the map looks for the number 0. -/
theorem rdmaRemove_of_not_mem (hr : h.table.Refines m) (hparse : parseControl buf = .ok c)
    (hk : c.key ∉ m) (hnone : h.findDentryByIno h.root 0 = none) : h.rdmaRemove buf = .ok h := by
  have hres : h.resolved? c = none := by
    have hfind : h.table.live.find? (Table.rdmaMatch c.ino c.inoParent) = none :=
      hr.find?_of_not_mem hk
    rw [resolved?, Table.myIno_eq, hfind]
    exact hnone
  have hsame : h.table.release c.ino c.inoParent = h.table := hr.release_of_not_mem hk
  rw [rdmaRemove, hparse]
  show h.rdmaRemoveParsed c = .ok h
  rw [rdmaRemoveParsed_def, hres, released, hsame]

/-- **The run lemma**: the table is the map in every state. -/
theorem Mapped.refines (hm : Mapped h m) : h.Sane ∧ h.table.Refines m := by
  induction hm with
  | mount lastIno perm nextPtr table => exact ⟨sane_mounted .., .empty Table.live_clear⟩
  | create _ hparse hi hok ih =>
      obtain ⟨t, hok', hs, hr, -⟩ := hi.rdmaCreate ih.1 ih.2 hparse _
      cases hok.symm.trans hok'
      exact ⟨hs.setTable t, hr⟩
  | @remove _ _ _ _ c _ hparse hok ih =>
      obtain ⟨g, hok', hs, htable⟩ := ih.1.rdmaRemove hparse
      cases hok.symm.trans hok'
      rw [htable]
      exact ⟨hs, ih.2.release c.key⟩
  | between _ hs htable ih =>
      rw [htable]
      exact ⟨hs, ih.2⟩

/-- A call does not touch the map. -/
theorem Mapped.call (hm : Mapped h m) {op : Op} {err : Option Errno}
    (hok : h.call env op = .ok (h', err)) : Mapped h' m := by
  obtain ⟨N, hg⟩ := call_grown hm.refines.1 hok
  exact .between hm hg.sane hg.table

/-- **The table refines a finite map.**  In every state of a run the used entries
are the links of the map, with different numbers, and `is_my_file` says of a
dentry whether its inode is in the range of the map.  A create frame that is new
to the map is handled and inserts its link, changing no used entry.  A remove
frame is handled and erases its key, changing no used entry with another one.
If its key is not there nothing in the table changes; nothing changes at all,
unless the search for number 0 that follows finds a file. -/
theorem table_refines_map (hm : Mapped h m) :
    h.table.Refines m ∧
    (∀ d i, h.inodeOf? d = some i →
      (h.isMyFile d = .ok false ↔ ∃ k v, m.lookup k = some v ∧ v.1 = i.iIno)) ∧
    (∀ env buf ip c g new parent i p, parseControl buf = .ok c →
      h.Inserts env m c g new parent i p →
        ∃ h', h.rdmaCreate env buf ip = .ok h' ∧
          h'.table.Refines (m.insert c.key (i.iIno, p.iIno)) ∧
          h.table.Keeps h'.table fun _ => True) ∧
    (∀ buf c, parseControl buf = .ok c → ∃ h', h.rdmaRemove buf = .ok h' ∧
      h'.table.Refines (m.erase c.key) ∧ h.table.Keeps h'.table (fun e => e.key ≠ c.key) ∧
      (c.key ∉ m → h'.table = h.table ∧ (h.findDentryByIno h.root 0 = none → h' = h))) := by
  obtain ⟨hs, hr⟩ := hm.refines
  refine ⟨hr, fun d i hi => ?_, fun env buf ip c g new parent i p hparse hins => ?_,
    fun buf c hparse => ?_⟩
  · rw [isMyFile, hi, ← hr.isMyFile_iff]
    simp
  · obtain ⟨t, hok, -, hr', hkeeps⟩ := hins.rdmaCreate hs hr hparse ip
    exact ⟨_, hok, hr', hkeeps⟩
  · obtain ⟨h', hok, -, htable⟩ := hs.rdmaRemove hparse
    refine ⟨h', hok, ?_, ?_, fun hk => ⟨htable.trans (hr.release_of_not_mem hk), fun hnone => ?_⟩⟩
    · rw [htable]
      exact hr.release c.key
    · rw [htable]
      exact Table.keeps_release h.table c.key
    · cases hok.symm.trans (rdmaRemove_of_not_mem hr hparse hk hnone)
      rfl

end Host

/-- What a create frame maps, read off from the link that it makes. -/
theorem Host.Mapped.announced {h : Host} {m : LinkMap} {f : Creation} {n q : CInt}
    (hm : h.Mapped m) (hkey : f.control.key ∉ m) (hfresh : ∀ k v, m.lookup k = some v → v.1 ≠ n)
    (hroom : m.keys.card < tableSize)
    (hmake : (h.makeLink (.server true) f.control).toOption.map (fun x =>
      ((x.1.inodeOf? x.2.1).map Inode.iIno, (x.1.inodeOf? x.2.2).map Inode.iIno)) =
      some (some n, some q)) :
    ∃ h', h.rdmaCreate (.server true) f.buf f.ip = .ok h' ∧
      h'.Mapped (m.insert f.control.key (n, q)) := by
  obtain ⟨⟨g, new, parent⟩, hmade, hnums⟩ := exists_of_toOption_map hmake
  obtain ⟨hnew, hparent⟩ := Prod.mk.inj hnums
  obtain ⟨i, hi, rfl⟩ := Option.map_eq_some_iff.mp hnew
  obtain ⟨p, hp, rfl⟩ := Option.map_eq_some_iff.mp hparent
  have hins : h.Inserts (.server true) m f.control g new parent i p :=
    ⟨hmade, hi, hp, hkey, hfresh, hroom⟩
  obtain ⟨t, hok, -⟩ := hins.rdmaCreate hm.refines.1 hm.refines.2 f.parse f.ip
  exact ⟨_, hok, hm.create f.parse hins hok⟩

/-- `mkdir("/e")`. -/
def mkdirE : Op := .mkdir [] [101] 0o755

/-- A peer announces the directory `d`, a process makes another one, and the
peer takes back `d`. -/
def takenBack : Except Fault Host := do
  let h ← freshMount.rdmaCreate (.server true) announceD.buf []
  let (h, _) ← h.call (.server true) mkdirE
  h.rdmaRemove (wjfsClientRemove 7 [100] 1 Host.rootName true)

/-- The map after the peer has announced `y` too. -/
def refilled : LinkMap := (((∅ : LinkMap).insert (7, 1) (2, 1)).erase (7, 1)).insert (9, 1) (4, 1)

/-- The peer's `y` gets the entry that `d` had. -/
theorem table_refines_map_announceD : ∃ h : Host, h.Mapped refilled ∧
    h.table.entries[0]?.map Entry.key = some (9, 1) ∧ h.table.Refines refilled := by
  obtain ⟨h₁, hok₁, hm₁⟩ := Host.Mapped.announced (f := announceD) (n := 2) (q := 1)
    (.mount 0 0o755 0 Table.initial) Finmap.notMem_empty (fun _ _ h => (by cases h)) (by decide)
    (by decide)
  have hback : takenBack.toOption.map (fun h =>
      ((h.makeLink (.server true) announceY.control).toOption.map (fun x =>
        ((x.1.inodeOf? x.2.1).map Inode.iIno, (x.1.inodeOf? x.2.2).map Inode.iIno)),
        (h.rdmaCreate (.server true) announceY.buf []).toOption.map
          fun g => g.table.entries[0]?.map Entry.key)) =
      some (some (some 4, some 1), some (some (9, 1))) := by decide
  obtain ⟨h₃, hok₃, hvals⟩ := exists_of_toOption_map hback
  obtain ⟨hnums, hslot⟩ := Prod.mk.inj hvals
  obtain ⟨h, hok, hrest⟩ := bind_eq_ok hok₃
  cases hok.symm.trans hok₁
  obtain ⟨⟨h₂, err⟩, hok₂, hremove⟩ := bind_eq_ok hrest
  have hm₂ := hm₁.call hok₂
  have hm₃ := hm₂.remove (c := ⟨7, [100], 1, Host.rootName, 1111⟩) (by decide) hremove
  have hnone : ∀ k v,
      (((∅ : LinkMap).insert (7, 1) (2, 1)).erase (7, 1)).lookup k = some v → v.1 ≠ 4 := by
    have hempty : ((∅ : LinkMap).insert (7, 1) (2, 1)).erase (7, 1) = ∅ := by decide
    rw [hempty]
    intro k v hk
    cases hk
  obtain ⟨h₄, hok₄, hm₄⟩ := hm₃.announced (f := announceY) (n := 4) (q := 1)
    (by decide) hnone (by decide) hnums
  rw [show h₃.rdmaCreate (.server true) announceY.buf [] = .ok h₄ from hok₄] at hslot
  exact ⟨h₄, hm₄, Option.some.inj hslot, (Host.table_refines_map hm₄).1⟩

end Wjfs
