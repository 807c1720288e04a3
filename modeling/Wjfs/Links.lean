import Mathlib.Data.Set.Basic
import Mathlib.Order.Interval.Set.Defs
import Wjfs.Run
import Wjfs.Table.Laws

/-!
# Wjfs.Links

Links and own files: which dentries a peer can take out of the tree.

A remove frame goes from two remote numbers through the table to a local
number, and from there by a search of the tree to a dentry, whose pin it takes.
`Bound` is what makes that safe: the used entries belong to pinned links, one
to each, and no two dentries have the same number.
-/

namespace Wjfs

namespace Host

variable {pin pin' : Ptr → Nat} {mine : Set Ptr} {h h' : Host} {env : Env} {p q i j k dir di : Ptr}
  {d e : Dentry} {c : Control}

/-- Dentry `d` in directory `p`, with inode `i`. -/
structure Node (h : Host) (p : Ptr) (d : Dentry) (i : Ptr) : Prop where
  mem : (some p, d) ∈ h.dcache.nodes
  inode : d.dInode = some i

/-- The table and the numbers of a host, `mine` being the addresses of the
inodes that the host made for itself. -/
structure Bound (mine : Set Ptr) (pin : Ptr → Nat) (h : Host) : Prop where
  tidy : h.Tidy pin
  nonzero : ∀ p d i, h.Node p d i → h.number i ≠ 0
  unique : ∀ p d i q e j, h.Node p d i → h.Node q e j → h.number i = h.number j → d = e
  pinned : ∀ p d i, h.Node p d i → i ∈ mine → pin d.ptr = 1
  mine_lt : ∀ i ∈ mine, i < h.nextPtr
  entry : ∀ e ∈ h.table.live, ∃ p d i, h.Node p d i ∧ i ∉ mine ∧ pin d.ptr = 1 ∧
    h.number i = e.localIno
  distinct : (h.table.live.map Entry.localIno).Nodup

/-- The number that `new_inode` draws next is not 0, and no dentry but perhaps
the root has it. -/
def FreshNumber (h : Host) : Prop :=
  h.lastIno + 1 ≠ 0 ∧ ∀ p d i, h.Node p d i → h.number i ≠ h.lastIno + 1

/-- The test for it. -/
def freshNumber (h : Host) : Bool :=
  h.lastIno + 1 != 0 && h.dcache.nodes.all fun x =>
    x.1.isNone || x.2.dInode.all fun i => h.number i != h.lastIno + 1

theorem freshNumber_iff : h.freshNumber = true ↔ h.FreshNumber := by
  simp only [freshNumber, FreshNumber, Bool.and_eq_true, bne_iff_ne, List.all_eq_true,
    Bool.or_eq_true, Option.all_eq_true]
  refine and_congr_right fun _ => ⟨fun hall p d i hd => ?_, fun hall x hx => ?_⟩
  · exact (hall _ hd.mem).resolve_left (by simp) i hd.inode
  · cases hp : x.1 with
    | none => exact .inl rfl
    | some p => exact .inr fun i hi => hall p x.2 i ⟨by rw [← hp]; exact hx, hi⟩

namespace Bound

theorem of_mounted (lastIno : CInt) (perm : BitVec 12) (nextPtr : Ptr) (table : Table) :
    Bound ∅ (mounted lastIno perm nextPtr table).onePin (mounted lastIno perm nextPtr table) := by
  have hnone : ∀ p d i, ¬ (mounted lastIno perm nextPtr table).Node p d i := by
    intro p d i hd
    have hmem := hd.mem
    simp [mounted, Dcache.nodes, Forest.flat] at hmem
  exact {
    tidy := tidy_mounted lastIno perm nextPtr table
    nonzero := fun p d i hd => (hnone p d i hd).elim
    unique := fun p d i _ _ _ hd => (hnone p d i hd).elim
    pinned := fun p d i hd => (hnone p d i hd).elim
    mine_lt := fun i hi => hi.elim
    entry := fun e he => by simp [mounted] at he
    distinct := by simp [mounted] }

/-- A host that only lost dentries and entries is as bound, if what the
entries that are left belong to is still there and pinned. -/
theorem within (hb : Bound mine pin h) (ht : h'.Tidy pin')
    (hw : Dcache.Within h'.dcache h.dcache) (hnext : h.nextPtr ≤ h'.nextPtr)
    (hnum : ∀ i, h'.number i = h.number i) (hlive : ∀ e ∈ h'.table.live, e ∈ h.table.live)
    (hdistinct : (h'.table.live.map Entry.localIno).Nodup)
    (hmine : ∀ p d i, h'.Node p d i → i ∈ mine → pin' d.ptr = 1)
    (hentry : ∀ p d i, h.Node p d i → pin d.ptr = 1 →
      (∃ e ∈ h'.table.live, e.localIno = h.number i) →
      h'.dcache.Has (some p, d) ∧ pin' d.ptr = 1) : Bound mine pin' h' := by
  have hold : ∀ {p d i}, h'.Node p d i → ∃ b, h.Node p (d.withCount b) i := fun hd => by
    obtain ⟨b, hb⟩ := hw _ hd.mem
    exact ⟨b, hb, hd.inode⟩
  refine ⟨ht, ?_, ?_, hmine, fun i hi => Nat.lt_of_lt_of_le (hb.mine_lt i hi) hnext, ?_, hdistinct⟩
  · intro p d i hd
    obtain ⟨b, hd'⟩ := hold hd
    rw [hnum]
    exact hb.nonzero p _ i hd'
  · intro p d i q e j hd he heq
    obtain ⟨b, hd'⟩ := hold hd
    obtain ⟨c, he'⟩ := hold he
    rw [hnum, hnum] at heq
    have hsame := hb.unique _ _ _ _ _ _ hd' he' heq
    have hptr : d.ptr = e.ptr := by simpa using congrArg Dentry.ptr hsame
    exact congrArg Prod.snd (Forest.eq_of_mem_flat ht.sound.nodup hd.mem he.mem hptr)
  · intro e he
    obtain ⟨p, d, i, hd, hi, hpin, hnumber⟩ := hb.entry e (hlive e he)
    obtain ⟨⟨b, hb'⟩, hpin'⟩ := hentry p d i hd hpin ⟨e, he, hnumber.symm⟩
    exact ⟨p, d.withCount b, i, ⟨hb', hd.inode⟩, hi, hpin', by rw [hnum]; exact hnumber⟩

/-- A host with a new leaf, whose inode has a number of its own.  If it is a
link, it has an entry with that number. -/
theorem plant {mine' : Set Ptr} (hb : Bound mine pin h)
    (ht : h'.Tidy (Function.update pin d.ptr 1)) (hdcache : h'.dcache = h.dcache.plant dir d)
    (hdir : dir ∈ h.dcache.ptrs) (hptr : d.ptr ∉ h.dcache.ptrs) (hi : d.dInode = some i)
    (hlt : h.nextPtr ≤ i ∧ i < h'.nextPtr) (hnum : ∀ j < h.nextPtr, h'.number j = h.number j)
    (hnew : h'.number i = h.lastIno + 1) (hfresh : h.FreshNumber)
    (hmine : ∀ j ∈ mine', j ∈ mine ∨ h.nextPtr ≤ j ∧ j < h'.nextPtr)
    (hlive : h'.table.live = h.table.live ∨ i ∉ mine' ∧
      ∃ e, h'.table.live.Perm (e :: h.table.live) ∧ e.localIno = h.lastIno + 1) :
    Bound mine' (Function.update pin d.ptr 1) h' := by
  have hn := hb.tidy.sound.nodup
  have hbare := Dcache.bare_plant (d := d) hn hdir
  rw [← hdcache] at hbare
  have hino : ∀ {p e j}, h.Node p e j → j < h.nextPtr := fun he =>
    hb.tidy.ready.inode_lt _ he.mem _ he.inode
  -- a dentry of the new tree is the leaf, or an old one
  have hold : ∀ {p e j}, h'.Node p e j →
      e = d ∧ j = i ∨ ∃ b, h.Node p (e.withCount b) j := fun {p e j} he => by
    have hmem := he.mem
    rw [hdcache] at hmem
    rcases (Dcache.mem_nodes_plant hn hdir).mp hmem with heq | hmem
    · cases heq
      exact .inl ⟨rfl, Option.some.inj (he.inode.symm.trans hi)⟩
    · obtain ⟨b, hb⟩ := Dcache.within_update (f := Dentry.get) (fun _ => ⟨_, rfl⟩) _ hmem
      exact .inr ⟨b, hb, he.inode⟩
  have hnode : ∀ {p e j}, h.Node p e j → ∃ b, h'.Node p (e.withCount b) j ∧ e.ptr ≠ d.ptr :=
    fun he => by
      obtain ⟨b, hb⟩ := Dcache.has_iff_mem_bare.mpr
        (hbare.mem_iff.mpr (List.mem_cons_of_mem _ (Dcache.mem_bare_of_mem he.mem)))
      exact ⟨b, ⟨hb, he.inode⟩, fun heq => hptr (heq ▸ Dcache.mem_ptrs_of_mem he.mem)⟩
  have hleaf : h'.Node dir d i := ⟨by
    rw [hdcache]
    exact (Dcache.mem_nodes_plant hn hdir).mpr (.inl rfl), hi⟩
  have hentry : ∀ e ∈ h.table.live, ∃ p d' j, h'.Node p d' j ∧ j ∉ mine' ∧
      Function.update pin d.ptr 1 d'.ptr = 1 ∧ h'.number j = e.localIno := by
    intro e he
    obtain ⟨p, d', j, hd', hj, hpin, hnumber⟩ := hb.entry e he
    obtain ⟨b, hb', hne⟩ := hnode hd'
    have hjlt := hino hd'
    refine ⟨p, _, j, hb', fun hj' => ?_, ?_, (hnum j hjlt).trans hnumber⟩
    · exact (hmine j hj').elim hj fun hge => Nat.not_lt_of_le hge.1 hjlt
    · rw [Dentry.ptr_withCount, Function.update_of_ne hne]
      exact hpin
  refine ⟨ht, ?_, ?_, ?_, ?_, ?_, ?_⟩
  · intro p e j he
    obtain ⟨rfl, rfl⟩ | ⟨b, hb'⟩ := hold he
    · rw [hnew]
      exact hfresh.1
    · rw [hnum j (hino hb')]
      exact hb.nonzero _ _ _ hb'
  · intro p e j q e' j' he he' heq
    obtain ⟨rfl, rfl⟩ | ⟨b, hb1⟩ := hold he <;> obtain ⟨rfl, rfl⟩ | ⟨b', hb2⟩ := hold he'
    · rfl
    · rw [hnew, hnum j' (hino hb2)] at heq
      exact absurd heq.symm (hfresh.2 _ _ _ hb2)
    · rw [hnew, hnum j (hino hb1)] at heq
      exact absurd heq (hfresh.2 _ _ _ hb1)
    · rw [hnum j (hino hb1), hnum j' (hino hb2)] at heq
      have hsame := congrArg Dentry.ptr (hb.unique _ _ _ _ _ _ hb1 hb2 heq)
      exact congrArg Prod.snd (Forest.eq_of_mem_flat ht.sound.nodup he.mem he'.mem hsame)
  · intro p e j he hj
    obtain ⟨rfl, rfl⟩ | ⟨b, hb'⟩ := hold he
    · exact Function.update_self ..
    · obtain ⟨-, -, hne⟩ := hnode hb'
      rw [Function.update_of_ne (by simpa using hne)]
      exact hb.pinned p (e.withCount b) j hb' ((hmine j hj).resolve_right fun hge =>
        Nat.not_lt_of_le hge.1 (hino hb'))
  · intro j hj
    exact (hmine j hj).elim (fun hj => Nat.lt_trans (Nat.lt_of_lt_of_le (hb.mine_lt j hj) hlt.1)
      hlt.2) fun hge => hge.2
  · intro e he
    rcases hlive with heq | ⟨hlink, e', hperm, hnumber⟩
    · exact hentry e (heq ▸ he)
    · rcases List.mem_cons.mp (hperm.mem_iff.mp he) with rfl | he
      · exact ⟨dir, d, i, hleaf, hlink, Function.update_self .., hnew.trans hnumber.symm⟩
      · exact hentry e he
  · rcases hlive with heq | ⟨-, e', hperm, hnumber⟩
    · rw [heq]
      exact hb.distinct
    · rw [(hperm.map _).nodup_iff, List.map_cons, List.nodup_cons]
      refine ⟨fun hmem => ?_, hb.distinct⟩
      obtain ⟨e, he, heq⟩ := List.mem_map.mp hmem
      obtain ⟨p, d', j, hd', -, -, hj⟩ := hb.entry e he
      exact hfresh.2 _ _ _ hd' (hj.trans (heq.trans hnumber))

/-- The dentries of a host and of one that lost some agree. -/
theorem node_within (hw : Dcache.Within h'.dcache h.dcache) (hd : h'.Node p d i) :
    ∃ b, h.Node p (d.withCount b) i := by
  obtain ⟨b, hb⟩ := hw _ hd.mem
  exact ⟨b, hb, hd.inode⟩

theorem dentry_eq (hb : Bound mine pin h) (hd : h.Node p d i) (he : h.Node q e j)
    (hptr : d.ptr = e.ptr) : d = e ∧ i = j := by
  have heq := Forest.eq_of_mem_flat hb.tidy.sound.nodup hd.mem he.mem hptr
  cases heq
  exact ⟨rfl, Option.some.inj (hd.inode.symm.trans he.inode)⟩

/-- An own file that its host removes. -/
theorem pruned (hb : Bound mine pin h) (hd : h.Node dir d i) (h0 : h.dcache.kids d.ptr = 0)
    (hown : h.table.isMyFile (h.number i) = true) (ht : h'.Tidy pin)
    (hdcache : h'.dcache = (h.pruned dir d.ptr).dcache) (htable : h'.table = h.table)
    (hnext : h.nextPtr ≤ h'.nextPtr) (hnum : ∀ j, h'.number j = h.number j) :
    Bound mine pin h' := by
  have hs := hb.tidy.sound.unlinkChild hd.mem h0
  have hdir : dir ∈ (h.dcache.unlinkChild d.ptr).ptrs :=
    (Forest.parent_mem_keys_erase hb.tidy.sound.nodup hd.mem).resolve_left (by simp)
  obtain ⟨-, hshrunk⟩ := hs.dput_shrunk hdir
  have hw : Dcache.Within h'.dcache h.dcache := by
    rw [hdcache]
    exact hshrunk.1.trans (hb.tidy.sound.within_unlinkChild h0)
  refine hb.within ht hw hnext hnum (by simp [htable]) (by rw [htable]; exact hb.distinct) ?_ ?_
  · intro p e j he hj
    obtain ⟨b, he'⟩ := node_within hw he
    exact hb.pinned p (e.withCount b) j he' hj
  · rintro p e j he hpin ⟨en, hen, hnumber⟩
    refine ⟨?_, hpin⟩
    have hne : e.ptr ≠ d.ptr := by
      intro heq
      obtain ⟨rfl, rfl⟩ := hb.dentry_eq he hd heq
      rw [htable] at hen
      exact Table.isMyFile_iff.mp hown en hen hnumber
    rw [hdcache]
    exact hshrunk.2 _ ((Dcache.mem_nodes_unlinkChild hb.tidy.sound.nodup h0).mpr ⟨he.mem, hne⟩)
      (Nat.le_of_eq hpin.symm)

/-- What is left of the used entries after a search for one to free. -/
theorem live_released (hb : Bound mine pin h) (c : Control) :
    (∀ e ∈ (h.released c).table.live, e ∈ h.table.live) ∧
      ((h.released c).table.live.map Entry.localIno).Nodup := by
  cases hf : h.table.live.find? (Table.rdmaMatch c.ino c.inoParent) with
  | none =>
      have hsame : (h.released c).table.live = h.table.live :=
        congrArg (List.filter Entry.used) (Table.release_of_none hf)
      rw [hsame]
      exact ⟨fun _ he => he, hb.distinct⟩
  | some e₀ =>
      have hperm := Table.live_release hf
      have hnodup := hb.distinct
      rw [(hperm.map _).nodup_iff, List.map_cons, List.nodup_cons] at hnodup
      exact ⟨fun e he => hperm.mem_iff.mpr (List.mem_cons_of_mem _ he), hnodup.2⟩

/-- A frame that only frees an entry. -/
theorem released (hb : Bound mine pin h) (c : Control) : Bound mine pin (h.released c) := by
  obtain ⟨hlive, hdistinct⟩ := hb.live_released c
  exact hb.within (hb.tidy.released c) (Dcache.Within.refl _) (Nat.le_refl _) (fun _ => rfl) hlive
    hdistinct (fun p d i hd => hb.pinned p d i ⟨hd.mem, hd.inode⟩)
    fun p d i hd hpin _ => ⟨Dcache.Has.of_mem hd.mem, hpin⟩

/-- The entry that a frame with a match resolves through. -/
theorem exists_entry (hb : Bound mine pin h) {p dir : Ptr} (hr : h.Resolved c p dir d i) :
    i ∉ mine ∧ pin d.ptr = 1 ∧ ∃ e, h.table.live.Perm (e :: (h.released c).table.live) ∧
      e.localIno = h.number i := by
  have hd : h.Node p d i := ⟨hr.mem, hr.inode⟩
  have hino := hr.ino
  rw [Table.myIno_eq] at hino
  cases hf : h.table.live.find? (Table.rdmaMatch c.ino c.inoParent) with
  | none =>
      rw [hf] at hino
      exact absurd hino (hb.nonzero p d i hd)
  | some e =>
      rw [hf] at hino
      obtain ⟨q, d', j, hd', hj, hpin, hnumber⟩ := hb.entry e (List.mem_of_find?_eq_some hf)
      have heq := hb.unique _ _ _ _ _ _ hd hd' (hino.trans hnumber.symm)
      subst heq
      obtain ⟨-, rfl⟩ := hb.dentry_eq hd hd' rfl
      exact ⟨hj, hpin, e, Table.live_release hf, hnumber.symm⟩

/-- A frame that takes the pin of a link: own files stay. -/
theorem unpinned (hb : Bound mine pin h) {p dir : Ptr} (hr : h.Resolved c p dir d i)
    (hdcache : h'.dcache = h.dcache.dput d.ptr) (htable : h'.table = (h.released c).table)
    (hroot : h'.root = h.root) (hfiles : h'.files = h.files) (hnext : h'.nextPtr = h.nextPtr)
    (hkind : ∀ j, (h'.inodes j).SameKind (h.inodes j)) :
    Bound mine (Function.update pin d.ptr 0) h' ∧
      ∀ p e j, h.Node p e j → j ∈ mine → h'.dcache.Has (some p, e) := by
  obtain ⟨hlink, hpin, e₀, hperm, hnumber⟩ := hb.exists_entry hr
  have hd : h.Node p d i := ⟨hr.mem, hr.inode⟩
  have hdr : d.ptr ≠ h.root := fun heq => by
    rw [heq, hb.tidy.sound.pin_root] at hpin
    omega
  obtain ⟨hs, hshrunk⟩ :=
    (hb.tidy.sound.unpin hdr hpin).dput_shrunk (Dcache.mem_ptrs_of_mem hr.mem)
  have hopens : h'.opens = h.opens := by unfold opens; rw [hfiles]
  rw [← hdcache] at hs hshrunk
  have ht : h'.Tidy (Function.update pin d.ptr 0) := by
    refine hb.tidy.within (by rw [hroot, hopens]; exact hs) hshrunk.1 hroot (by rw [hnext])
      (by rw [hfiles, hnext]; exact hb.tidy.file_lt) fun _ _ j _ => hkind j
  have hother : ∀ {q e j}, h.Node q e j → j ≠ i → e.ptr ≠ d.ptr := fun he hj heq =>
    hj (hb.dentry_eq he hd heq).2
  obtain ⟨hlive, hdistinct⟩ := hb.live_released c
  refine ⟨hb.within ht hshrunk.1 (by rw [hnext]) (fun j => (hkind j).2.2)
    (by rw [htable]; exact hlive) (by rw [htable]; exact hdistinct) ?_ ?_, ?_⟩
  · intro q e j he hj
    obtain ⟨b, he'⟩ := node_within hshrunk.1 he
    have hne := hother he' fun heq => hlink (heq ▸ hj)
    rw [Function.update_of_ne (by simpa using hne)]
    exact hb.pinned q (e.withCount b) j he' hj
  · rintro q e j he hpe ⟨en, hen, hen'⟩
    -- an entry that is left has another number than the one that was freed
    have hne : e.ptr ≠ d.ptr := hother he fun heq => by
      have hnodup := hb.distinct
      rw [(hperm.map _).nodup_iff, List.map_cons, List.nodup_cons] at hnodup
      rw [htable] at hen
      exact hnodup.1 (List.mem_map.mpr ⟨en, hen, by rw [hnumber, hen', heq]⟩)
    rw [Function.update_of_ne hne]
    exact ⟨hshrunk.2 _ he.mem (by rw [Function.update_of_ne hne]; omega), hpe⟩
  · intro q e j he hj
    have hne := hother he fun heq => hlink (heq ▸ hj)
    exact hshrunk.2 _ he.mem (by rw [Function.update_of_ne hne, hb.pinned q e j he hj])

/-- What a remove frame leaves of an own file: everything but its link
count. -/
def Kept (mine : Set Ptr) (h h' : Host) : Prop :=
  (∀ p d i, h.Node p d i → i ∈ mine → h'.dcache.Has (some p, d)) ∧
    ∀ i, ∃ n, h'.inodes i = { h.inodes i with iNlink := n }

theorem Kept.refl (mine : Set Ptr) (h : Host) : Kept mine h h :=
  ⟨fun _ _ _ hd _ => Dcache.Has.of_mem hd.mem, fun _ => ⟨_, rfl⟩⟩

theorem Kept.trans {h'' : Host} (hk : Kept mine h h') (hk' : Kept mine h' h'') :
    Kept mine h h'' := by
  refine ⟨fun p d i hd hi => ?_, fun i => ?_⟩
  · obtain ⟨b, hb⟩ := hk.1 p d i hd hi
    obtain ⟨c, hc⟩ := hk'.1 p (d.withCount b) i ⟨hb, hd.inode⟩ hi
    exact ⟨c, hc⟩
  · obtain ⟨n, hn⟩ := hk.2 i
    obtain ⟨m, hm⟩ := hk'.2 i
    exact ⟨m, by rw [hm, hn]⟩

/-- `drop_nlink` changes link counts only. -/
theorem links_dropNlink {g : Host} (hg : ∀ j, ∃ n, g.inodes j = { h.inodes j with iNlink := n })
    (i j : Ptr) :
    ∃ n, (g.setInode i Inode.dropNlink).inodes j = { h.inodes j with iNlink := n } := by
  obtain ⟨n, hn⟩ := hg j
  by_cases hji : j = i
  · subst hji
    exact ⟨n - 1, by simp [setInode, hn, Inode.dropNlink]⟩
  · exact ⟨n, by simp [setInode, hji, hn]⟩

/-- **A remove frame**, whatever it says, does no harm to a bound host: it does
not fault, keeps the host bound and leaves own files in place. -/
theorem remove (hb : Bound mine pin h) (c : Control) :
    ∃ h' pin', h.rdmaRemoveParsed c = .ok h' ∧ Bound mine pin' h' ∧ Kept mine h h' := by
  have hfree : Kept mine h (h.released c) :=
    ⟨fun _ _ _ hd _ => Dcache.Has.of_mem hd.mem, fun _ => ⟨_, rfl⟩⟩
  obtain ⟨-, heq⟩ | ⟨p, dir, d, i, hr, heq⟩ := rdmaRemoveParsed_eq hb.tidy c
  · exact ⟨_, pin, heq, hb.released c, hfree⟩
  -- what both callbacks do once they drop the reference
  have hdrop : ∀ h', h'.dcache = h.dcache.dput d.ptr → h'.table = (h.released c).table →
      h'.root = h.root → h'.files = h.files → h'.nextPtr = h.nextPtr →
      (∀ j, ∃ n, h'.inodes j = { h.inodes j with iNlink := n }) → h.removed c dir d i = h' →
      ∃ h' pin', h.rdmaRemoveParsed c = .ok h' ∧ Bound mine pin' h' ∧ Kept mine h h' := by
    intro h' hdcache htable hroot hfiles hnext hlinks hremoved
    have hkind : ∀ j, (h'.inodes j).SameKind (h.inodes j) := fun j => by
      obtain ⟨n, hn⟩ := hlinks j
      rw [hn]
      exact ⟨rfl, rfl, rfl⟩
    obtain ⟨hb', hkeep⟩ := hb.unpinned hr hdcache htable hroot hfiles hnext hkind
    exact ⟨h', _, by rw [heq, hremoved], hb', hkeep, hlinks⟩
  have hself : ∀ j, ∃ n, (h.released c).inodes j = { h.inodes j with iNlink := n } :=
    fun _ => ⟨_, rfl⟩
  by_cases hmode : c.mode ≠ 0
  · cases hempty : (h.released c).dcache.simpleEmpty d.ptr with
    | false =>
        refine ⟨_, pin, heq, ?_⟩
        rw [Host.removed, if_pos hmode, wjfsRmdirRdma, hempty]
        exact ⟨hb.released c, hfree⟩
    | true =>
        refine hdrop ((((h.released c).setInode i Inode.dropNlink).simpleUnlink d.ptr i).setInode
          dir Inode.dropNlink) rfl rfl rfl rfl rfl ?_ ?_
        · exact links_dropNlink (links_dropNlink (links_dropNlink hself i) i) dir
        · rw [Host.removed, if_pos hmode, wjfsRmdirRdma, hempty]
          rfl
  · refine hdrop (((h.released c).setInode i Inode.dropNlink).dput d.ptr) rfl rfl rfl rfl rfl
      (links_dropNlink hself i) ?_
    rw [Host.removed, if_neg hmode, wjfsUnlinkRdma]

end Bound

/-! ## runs -/

end Host

/-- The calls that make or remove a file. -/
def Op.Plain (op : Op) : Prop :=
  op.Makes ∨ (∃ path name, op = .unlink path name) ∨ ∃ path name, op = .rmdir path name

/-- The addresses that an event draws for the host's own use. -/
def Event.draws (h h' : Host) : Event → Set Ptr
  | .call .. => Set.Ico h.nextPtr h'.nextPtr
  | .create .. | .remove .. | .elsewhere .. => ∅

namespace Host

variable {pin pin' : Ptr → Nat} {mine : Set Ptr} {h h' : Host} {env : Env} {p i j : Ptr}
  {d : Dentry} {ev : Event} {op : Op} {err : Option Errno}

/-- What a host may do to keep its own files safe from its peer: make and
remove files, only remove what it owns, and only make a file when the number
it gets is no dentry's. -/
def Careful (h : Host) : Event → Prop
  | .call env op => op.Plain ∧ h.OwnedRemoval (.call env op) ∧ (op.Makes → h.FreshNumber)
  | .create .. => h.FreshNumber
  | _ => True

/-- The states of a host that was mounted and then saw events that `ok` lets
through, each with the addresses drawn in local calls. -/
inductive LocalRun (ok : Host → Event → Prop) : Host → Set Ptr → Prop
  | mount (lastIno : CInt) (perm : BitVec 12) (nextPtr : Ptr) (table : Table) :
      LocalRun ok (mounted lastIno perm nextPtr table) ∅
  | step {h h' : Host} {e : Event} {mine : Set Ptr} : LocalRun ok h mine → ok h e →
      h.step e = .ok h' → LocalRun ok h' (mine ∪ e.draws h h')

namespace Bound

/-- Addresses that nothing was made at may count as the host's own. -/
theorem noTrace (hb : Bound mine pin h) (hno : h.NoTrace h') :
    Bound (mine ∪ Set.Ico h.nextPtr h'.nextPtr) pin h' := by
  obtain ⟨n, hn, rfl⟩ := id hno
  have hmine : ∀ {p d i}, h.Node p d i → i ∈ mine ∪ Set.Ico h.nextPtr n → i ∈ mine := fun hd hi =>
    hi.resolve_right fun hge =>
      Nat.not_lt_of_le hge.1 (hb.tidy.ready.inode_lt _ hd.mem _ hd.inode)
  have hnode : ∀ {p d i}, ({ h with nextPtr := n } : Host).Node p d i → h.Node p d i :=
    fun hd => ⟨hd.mem, hd.inode⟩
  refine ⟨hb.tidy.noTrace hno, fun p d i hd => hb.nonzero p d i (hnode hd),
    fun p d i q e j hd he => hb.unique p d i q e j (hnode hd) (hnode he),
    fun p d i hd hi => hb.pinned p d i (hnode hd) (hmine (hnode hd) hi), ?_, ?_, hb.distinct⟩
  · exact fun i hi => hi.elim (fun hi => Nat.lt_of_lt_of_le (hb.mine_lt i hi) hn) fun hlt => hlt.2
  · intro e he
    obtain ⟨p, d, i, hd, hi, hpin, hnumber⟩ := hb.entry e he
    exact ⟨p, d, i, ⟨hd.mem, hd.inode⟩, fun hi' => hi (hmine hd hi'), hpin, hnumber⟩

/-- `is_my_file` of a dentry asks for its number. -/
theorem isMyFile_number (hb : Bound mine pin h) (hd : (some p, d) ∈ h.dcache.nodes)
    (hi : d.dInode = some i) (hmine : h.isMyFile d.ptr = .ok true) :
    h.table.isMyFile (h.number i) = true := by
  rw [isMyFile, inodeOf?, dInode?_of_mem hb.tidy.sound.nodup hd, hi] at hmine
  exact Except.ok.inj hmine

/-- A careful call. -/
theorem call (hb : Bound mine pin h) (hc : h.Careful (.call env op))
    (hok : h.call env op = .ok (h', err)) :
    ∃ pin', Bound (mine ∪ Set.Ico h.nextPtr h'.nextPtr) pin' h' := by
  obtain ⟨hplain, hown, hfresh⟩ := hc
  have hop : ∀ o n p q, op ≠ .rename o n p q := by
    rintro o n p q rfl
    rcases hplain with h | ⟨_, _, h⟩ | ⟨_, _, h⟩ <;> cases h
  cases effect_of_call hb.tidy hown hop hok with
  | noTrace hno => exact ⟨pin, hb.noTrace hno⟩
  | @created _ _ path name dir di mode hmakes hq hz =>
      obtain ⟨z, hz', hzi⟩ := Ready.exists_dentry hq.inode
      have hzm := Dcache.mem_nodes_of_node? hz'
      have hdi : di ≠ h.nextPtr + 1 := fun heq =>
        Nat.lt_irrefl _ (Nat.lt_of_succ_lt (heq ▸ hb.tidy.ready.inode_lt z hzm di hzi))
      obtain ⟨-, -, htable, hnext⟩ := @frame_created h env dir di name mode
      refine ⟨_, hb.plant (d := (liveDentry h.nextPtr name (h.nextPtr + 1)).withCount 1)
        (hb.tidy.created hq.inode hq.isDir hz) (dcache_created ..) hq.mem
        hb.tidy.ready.nextPtr_not_mem rfl ⟨Nat.le_succ _, ?_⟩ (fun j hj => ?_) ?_ (hfresh hmakes)
        (fun j hj => hj) (.inl (by rw [htable]))⟩
      · rw [hnext]
        exact Nat.lt_succ_self _
      · have hne : j ≠ h.nextPtr + 1 := Nat.ne_of_lt (Nat.lt_succ_of_lt hj)
        rw [number, inodes_created_old hne]
        split <;> rfl
      · rw [number, inodes_created_new hdi, iIno_newInode]
  | hardLinked => rcases hplain with h | ⟨_, _, h⟩ | ⟨_, _, h⟩ <;> cases h
  | renamed => exact absurd rfl (hop _ _ _ _)
  | @unlinked _ _ _ dir di i d hd hdir hi hfile hmine =>
      have h0 := hb.tidy.kids_eq_zero ((dInode?_of_mem hb.tidy.sound.nodup hd).trans hi) hfile
      have hnext : (h.unlinked env dir di i d).nextPtr = h.nextPtr := nextPtr_send ..
      rw [hnext, Set.Ico_self, Set.union_empty]
      exact ⟨pin, hb.pruned ⟨hd, hi⟩ h0 (isMyFile_number hb hd hi hmine) (hb.tidy.unlinked hd h0)
        (dcache_send ..) (table_send ..) (Nat.le_of_eq hnext.symm) fun j => by
          rw [Host.unlinked, number_send, number_setInode Inode.iIno_dropNlink]
          rfl⟩
  | @rmdired _ _ _ dir di i d hd hdir hi hisdir h0 hmine =>
      have hnext : (h.rmdired env dir di i d).nextPtr = h.nextPtr := nextPtr_send ..
      rw [hnext, Set.Ico_self, Set.union_empty]
      exact ⟨pin, hb.pruned ⟨hd, hi⟩ h0 (isMyFile_number hb hd hi hmine)
        (hb.tidy.rmdired hd h0 hi hisdir) (dcache_send ..) (table_send ..)
        (Nat.le_of_eq hnext.symm) fun j => by
          rw [Host.rmdired, number_setInode Inode.iIno_setDead, number_send,
            number_setInode Inode.iIno_dropNlink, number_setInode Inode.iIno_dropNlink,
            number_setInode Inode.iIno_dropNlink]
          rfl⟩

/-- A frame that announces a file. -/
theorem create (hb : Bound mine pin h) {newInode : Bool} {buf ip : Bytes}
    (hfresh : h.FreshNumber) (hok : h.rdmaCreate (.server newInode) buf ip = .ok h') :
    ∃ pin', Bound mine pin' h' := by
  cases effect_of_create hb.tidy hok with
  | @linked _ _ _ c dir di table hc hl hins =>
      obtain ⟨z, hz, hzi⟩ := Ready.exists_dentry hl.inode
      obtain ⟨e, hperm⟩ := Table.live_insert (fun _ => rfl) hins
      refine ⟨_, hb.plant (d := (liveDentry h.nextPtr c.name (h.nextPtr + 1)).withCount 1)
        (hb.tidy.linked hl table) rfl (Dcache.mem_ptrs_of_node? hz)
        hb.tidy.ready.nextPtr_not_mem rfl ⟨Nat.le_succ _, Nat.lt_succ_self _⟩ (fun j hj => ?_) ?_
        hfresh (fun j hj => .inl hj) (.inr ⟨fun hm => ?_, _, hperm, rfl⟩)⟩
      · have hne : j ≠ h.nextPtr + 1 := Nat.ne_of_lt (Nat.lt_succ_of_lt hj)
        simp [number, Host.linked, made, madeIn, hne]
      · simp [number, Host.linked, made, madeIn]
      · exact Nat.not_succ_le_self _ (Nat.le_of_lt (hb.mine_lt _ hm))

/-- A careful event keeps the host bound. -/
theorem step (hb : Bound mine pin h) (hc : h.Careful ev) (hok : h.step ev = .ok h') :
    ∃ pin', Bound (mine ∪ ev.draws h h') pin' h' := by
  cases ev with
  | call env op =>
      obtain ⟨⟨g, err⟩, hcall, rfl⟩ := map_eq_ok hok
      exact hb.call hc hcall
  | create newInode buf ip =>
      obtain ⟨pin', hb'⟩ := hb.create hc hok
      exact ⟨pin', by rw [Event.draws, Set.union_empty]; exact hb'⟩
  | remove buf =>
      obtain ⟨c, -, hok⟩ := bind_eq_ok hok
      obtain ⟨g, pin', heq, hb', -⟩ := hb.remove c
      rw [heq] at hok
      cases hok
      exact ⟨pin', by rw [Event.draws, Set.union_empty]; exact hb'⟩
  | elsewhere n =>
      cases hok
      refine ⟨pin, ?_⟩
      rw [Event.draws, Set.union_empty]
      exact hb.within (hb.tidy.within hb.tidy.sound (Dcache.Within.refl _) rfl (Nat.le_refl _)
        hb.tidy.file_lt fun _ _ _ _ => ⟨rfl, rfl, rfl⟩) (Dcache.Within.refl _) (Nat.le_refl _)
        (fun _ => rfl) (fun _ he => he) hb.distinct
        (fun p d i hd => hb.pinned p d i ⟨hd.mem, hd.inode⟩)
        fun p d i hd hpin _ => ⟨Dcache.Has.of_mem hd.mem, hpin⟩

/-- A host is bound in every state of a careful run. -/
theorem of_run (hr : LocalRun Careful h mine) : ∃ pin, Bound mine pin h := by
  induction hr with
  | mount lastIno perm nextPtr table => exact ⟨_, of_mounted lastIno perm nextPtr table⟩
  | step _ hc hok ih =>
      obtain ⟨pin, hb⟩ := ih
      exact hb.step hc hok

end Bound

/-! ## any number of remove frames -/

/-- Handle remove frames one after the other. -/
def removeAll (h : Host) : List Bytes → Except Fault Host
  | [] => .ok h
  | buf :: bufs => do (← h.rdmaRemove buf).removeAll bufs

/-- A remove frame frees one entry of the table at most, whatever else it
does. -/
theorem freesOne_rdmaRemove {buf : Bytes} (hok : h.rdmaRemove buf = .ok h') :
    h.table.FreesOne h'.table := by
  obtain ⟨c, -, hok⟩ := bind_eq_ok hok
  rw [rdmaRemoveParsed_table hok]
  exact Table.freesOne_release ..

/-- Remove frames, however many, leave own files where they are. -/
theorem Bound.removeAll {bufs : List Bytes} (hb : Bound mine pin h)
    (hparse : ∀ b ∈ bufs, ∃ c, parseControl b = .ok c) :
    ∃ h' pin', h.removeAll bufs = .ok h' ∧ Bound mine pin' h' ∧ Bound.Kept mine h h' := by
  induction bufs generalizing h pin with
  | nil => exact ⟨h, pin, rfl, hb, .refl mine h⟩
  | cons b bs ih =>
      obtain ⟨c, hc⟩ := hparse b (by simp)
      obtain ⟨g, pin₁, hg, hb₁, hk₁⟩ := hb.remove c
      obtain ⟨h', pin₂, hh', hb₂, hk₂⟩ := ih hb₁ fun b hb => hparse b (by simp [hb])
      refine ⟨h', pin₂, ?_, hb₂, hk₁.trans hk₂⟩
      have hb' : h.rdmaRemove b = .ok g := by
        rw [rdmaRemove, hc]
        exact hg
      rw [Host.removeAll, hb']
      exact hh'

/-- **A peer can remove only links.**  In every state of a careful run, any
number of remove frames that parse, forged or not, are handled without a fault;
every dentry whose inode the host made for itself is still in the tree, with
the same name, parent and inode, and the inode's contents are the same.  Every
single frame frees one entry of the table at most and changes nothing else in
it. -/
theorem peer_removes_only_links (hr : LocalRun Careful h mine) (bufs : List Bytes)
    (hparse : ∀ b ∈ bufs, ∃ c, parseControl b = .ok c) :
    (∃ h', h.removeAll bufs = .ok h' ∧ ∀ p d i, h.Node p d i → i ∈ mine →
      (∃ b, h'.Node p (d.withCount b) i) ∧ ∃ n, h'.inodes i = { h.inodes i with iNlink := n }) ∧
    ∀ (g g' : Host) buf, g.rdmaRemove buf = .ok g' → g.table.FreesOne g'.table := by
  obtain ⟨pin, hb⟩ := Bound.of_run hr
  obtain ⟨h', -, hok, -, hkeep, hino⟩ := hb.removeAll hparse
  refine ⟨⟨h', hok, fun p d i hd hi => ?_⟩, fun _ _ _ => freesOne_rdmaRemove⟩
  obtain ⟨b, hb⟩ := hkeep p d i hd hi
  exact ⟨⟨b, hb, hd.inode⟩, hino i⟩

end Host

/-! ## a link and a file -/

/-- `"CR 7 x 1 / 0000"`. -/
def linkXFrame : Event := .create true (wjfsClientCreate 7 [120] 1 Host.rootName false) []

/-- `creat("/f")`. -/
def createF : Event := .call (Env.server true) (.create [] [102] 0o644)

/-- The frame that removes `x`, and one that names numbers nobody told. -/
def removeFrames : List Bytes :=
  [wjfsClientRemove 7 [120] 1 Host.rootName true, wjfsClientRemove 3 [102] 1 Host.rootName false]

/-- The dentry of `f`. -/
def fileF : Dentry where
  ptr := 4
  dName := [102]
  dInode := some 5
  dCount := 1
  dUnhashed := false
  dOp := true
  dMounted := false

/-- The file `f` that the host made stays. -/
theorem peer_removes_only_links_f :
    ∃ h h' mine, Host.LocalRun Host.Careful h mine ∧ h.Node 0 fileF 5 ∧
      h.removeAll removeFrames = .ok h' ∧ ∃ b, h'.Node 0 (fileF.withCount b) 5 := by
  have hlink : ((Host.mounted 0 0o755 0 Table.initial).step linkXFrame).toOption.map
      (fun h => (h.freshNumber, h.nextPtr)) = some (true, 4) := by decide
  have hfile : ((Host.mounted 0 0o755 0 Table.initial).step linkXFrame >>= fun h =>
      h.step createF).toOption.map (fun h => (h.nextPtr, h.dcache.nodes.tail.head?)) =
      some (6, some (some 0, fileF)) := by decide
  have hparse : ∀ b ∈ removeFrames, (parseControl b).toOption.map (fun _ => ()) = some () := by
    decide
  obtain ⟨h₁, hh₁, hval₁⟩ := exists_of_toOption_map hlink
  obtain ⟨h₂, hh₂, hval₂⟩ := exists_of_toOption_map hfile
  rw [hh₁] at hh₂
  simp only [Prod.mk.injEq] at hval₁ hval₂
  have hrun₁ : Host.LocalRun Host.Careful h₁ _ :=
    .step (e := linkXFrame) (.mount 0 0o755 0 Table.initial)
      (Host.freshNumber_iff (h := Host.mounted 0 0o755 0 Table.initial) |>.mp
        (by decide)) hh₁
  have hrun₂ : Host.LocalRun Host.Careful h₂ _ :=
    hrun₁.step (e := createF) ⟨.inl trivial, trivial, fun _ => Host.freshNumber_iff.mp hval₁.1⟩ hh₂
  have hnode : h₂.Node 0 fileF 5 :=
    ⟨List.mem_of_mem_tail (List.mem_of_mem_head? hval₂.2), rfl⟩
  obtain ⟨⟨h', hok, hkeep⟩, -⟩ := Host.peer_removes_only_links hrun₂ removeFrames fun b hb => by
    obtain ⟨c, hc, -⟩ := exists_of_toOption_map (hparse b hb)
    exact ⟨c, hc⟩
  refine ⟨h₂, h', _, hrun₂, hnode, hok, (hkeep 0 fileF 5 hnode (.inr ?_)).1⟩
  rw [createF, Event.draws, hval₁.2, hval₂.1]
  decide

/-- The peer tells of directories `D`, `D/E` and `D/F`, the host makes a file
`L` in `D/E` and then tries to remove both directories, which are not its own;
a frame with the wrong flag makes `D` the host's own, and the host removes it
too. -/
def orphanL : List Event :=
  [.create true (wjfsClientCreate 7 [68] 1 Host.rootName true) [],
    .create true (wjfsClientCreate 8 [69] 7 [68] true) [],
    .create true (wjfsClientCreate 9 [70] 7 [68] true) [],
    .call (Env.server true) (.create [[68], [69]] [76] 0o644),
    .call (Env.server true) (.rmdir [[68]] [69]),
    .call (Env.server true) (.rmdir [[68]] [70]),
    .remove (wjfsClientRemove 7 [68] 1 Host.rootName false),
    .call (Env.server true) (.rmdir [] [68])]

/-- `"RM 9 F 7 D 1111"`, the frame that removes `F`. -/
def removeF : Bytes := wjfsClientRemove 9 [70] 7 [68] true

/-- The frame that removes `F` takes `D` with it, and so the file `L` that the
host made. -/
theorem removeF_loses_L :
    ∃ h h', (Host.mounted 0 0o755 0 Table.initial).play orphanL = .ok h ∧
      h.removeAll [removeF] = .ok h' ∧
      h.dcache.nodes.map (fun x => (x.2.dName, h.number (x.2.dInode.getD 0))) =
        [(Host.rootName, 1), ([68], 2), ([70], 4), ([69], 3), ([76], 5)] ∧
      h'.dcache.nodes.map (fun x => x.2.dName) = [Host.rootName] := by
  have hsetup : ((Host.mounted 0 0o755 0 Table.initial).play orphanL).toOption.map
      (fun h => h.dcache.nodes.map fun x => (x.2.dName, h.number (x.2.dInode.getD 0))) =
        some [(Host.rootName, 1), ([68], 2), ([70], 4), ([69], 3), ([76], 5)] := by decide +kernel
  have hlost : ((Host.mounted 0 0o755 0 Table.initial).play orphanL >>= fun h =>
      h.removeAll [removeF]).toOption.map (fun h => h.dcache.nodes.map fun x => x.2.dName) =
        some [Host.rootName] := by decide +kernel
  obtain ⟨h, hp, hnodes⟩ := exists_of_toOption_map hsetup
  obtain ⟨h', hp', hnodes'⟩ := exists_of_toOption_map hlost
  rw [hp] at hp'
  exact ⟨h, h', hp, hp', hnodes, hnodes'⟩

end Wjfs
