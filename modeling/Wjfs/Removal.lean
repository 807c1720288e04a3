import Wjfs.Dcache.Release
import Wjfs.Reach
import Wjfs.Table.Laws

/-!
# Wjfs.Removal

What a remove frame leaves of a link.

The link of a table entry is the dentry with the number, the name and the
directory that the entry records.  `rdma_remove` frees the entry first, and only
then looks for a dentry, by the number alone.  It may find another one, as a
hard link has the number too; `wjfs_rmdir_rdma` gives up if what is found has
children; and the one `dput` that both helpers do only kills a dentry that
nobody else holds.  `remote_removal_iff` is the exact condition, for every state
that a host can get into.
-/

namespace Wjfs

namespace Host

variable {h h' : Host} {c : Control} {p q dir i k : Ptr} {d f : Dentry} {name : Bytes} {e : Entry}

/-! ## resolving by name -/

/-- A name in a directory leads to a dentry. -/
def ResolvesTo (h : Host) (p : Ptr) (name : Bytes) (k : Ptr) : Prop :=
  ∃ e, h.dcache.dLookup p name = some e ∧ e.ptr = k

/-- A dentry is found by its name exactly if it is hashed. -/
theorem resolvesTo_iff (hh : h.dcache.Held) (hd : (some p, d) ∈ h.dcache.nodes) :
    h.ResolvesTo p d.dName d.ptr ↔ d.dUnhashed = false := by
  constructor
  · rintro ⟨e, hl, hptr⟩
    have he := Dcache.mem_nodes_of_dLookup hh.nodup hl
    have heq : ((some p, e) : Option Ptr × Dentry) = (some p, d) :=
      Forest.eq_of_mem_flat hh.nodup he hd hptr
    cases heq
    exact (Dcache.dLookup_some hl).2.1
  · intro hu
    cases hl : h.dcache.dLookup p d.dName with
    | none =>
        have hnone := List.find?_eq_none.mp hl d ((Dcache.mem_subdirs_iff hh.nodup).mpr hd)
        simp [hu] at hnone
    | some e =>
        obtain ⟨-, hue, hname⟩ := Dcache.dLookup_some hl
        have he := Dcache.mem_nodes_of_dLookup hh.nodup hl
        exact ⟨e, hl, hh.distinct p e d he hd hue hu hname⟩

/-- After a `dput` of a dentry another one is still found exactly if it is hashed
and not lost. -/
theorem resolvesTo_dput_iff (hs : h.Sane) (hf : (some q, f) ∈ h.dcache.nodes)
    (hd : (some p, d) ∈ h.dcache.nodes) : (h.dput f.ptr).ResolvesTo p d.dName d.ptr ↔
      d.dUnhashed = false ∧ ¬ h.dcache.Lost f.ptr d.ptr := by
  have hheld : (h.dput f.ptr).dcache.Held := by
    have hfades : Dcache.Fades (fun _ => true) h.dcache (h.dcache.dput f.ptr) := .dput hs.held f.ptr
    exact hfades.held
  obtain ⟨hwithin, hstays⟩ := Dcache.dput_spec hs.held hf
  by_cases hlost : h.dcache.Lost f.ptr d.ptr
  · refine iff_of_false ?_ fun h => h.2 hlost
    rintro ⟨e, hl, hptr⟩
    have hmem := Dcache.mem_ptrs_of_mem (Dcache.mem_nodes_of_dLookup hheld.nodup hl)
    exact (hstays _ hd).mp (hptr ▸ hmem) hlost
  · obtain ⟨y, hy, hptr⟩ := Forest.exists_mem_flat ((hstays _ hd).mpr hlost) none
    obtain ⟨b, hb⟩ := hwithin y hy
    have heq : ((y.1, y.2.withCount b) : Option Ptr × Dentry) = (some p, d) :=
      Forest.eq_of_mem_flat hs.held.nodup hb hd hptr
    obtain ⟨hpar, rfl⟩ := Prod.mk.inj heq
    have hy' : (some p, y.2) ∈ (h.dput f.ptr).dcache.nodes := hpar ▸ hy
    exact (resolvesTo_iff hheld hy').trans ⟨fun hu => ⟨hu, hlost⟩, And.left⟩

/-! ## what a remove frame leaves -/

/-- The tree after a remove frame that found a dentry. -/
theorem dcache_removed : (h.removed c dir d i).dcache =
    if c.mode ≠ 0 ∧ h.dcache.simpleEmpty d.ptr = false then h.dcache else h.dcache.dput d.ptr := by
  unfold removed wjfsRmdirRdma wjfsUnlinkRdma simpleUnlink
  by_cases hm : c.mode ≠ 0
  · rw [if_pos hm]
    cases he : h.dcache.simpleEmpty d.ptr with
    | true =>
        rw [if_neg (by simp [released, he]), if_neg (by simp)]
        rfl
    | false =>
        rw [if_pos (by simp [released, he]), if_pos ⟨hm, rfl⟩]
        rfl
  · rw [if_neg hm, if_neg fun hgive => hm hgive.1]
    rfl

/-- A dentry is still found by its name after the frame exactly if it was before,
and if `wjfs_rmdir_rdma` gave up or the `dput` leaves it. -/
theorem resolvesTo_removed_iff (hs : h.Sane) (hr : h.Resolved c q dir f i)
    (hd : (some p, d) ∈ h.dcache.nodes) :
    (h.removed c dir f i).ResolvesTo p d.dName d.ptr ↔ d.dUnhashed = false ∧
      (c.mode ≠ 0 ∧ h.dcache.simpleEmpty f.ptr = false ∨ ¬ h.dcache.Lost f.ptr d.ptr) := by
  have hcongr : (h.removed c dir f i).ResolvesTo p d.dName d.ptr ↔
      ({ h with dcache := (h.removed c dir f i).dcache } : Host).ResolvesTo p d.dName d.ptr :=
    Iff.rfl
  rw [hcongr, dcache_removed]
  by_cases hgive : c.mode ≠ 0 ∧ h.dcache.simpleEmpty f.ptr = false
  · rw [if_pos hgive]
    exact (resolvesTo_iff hs.held hd).trans ⟨fun hu => ⟨hu, .inl hgive⟩, And.left⟩
  · rw [if_neg hgive]
    exact (resolvesTo_dput_iff hs hr.mem hd).trans
      ⟨fun h => ⟨h.1, .inr h.2⟩, fun h => ⟨h.1, h.2.resolve_left hgive⟩⟩

/-! ## the link of an entry -/

/-- The dentries whose inode has the number of the entry. -/
def numbered (h : Host) (e : Entry) : List (Option Ptr × Dentry) :=
  h.dcache.nodes.filter fun x => x.1.isSome && x.2.dInode.any fun i => h.number i == e.localIno

/-- The entry records the name of the dentry, as far as that fits, and the number
of its directory. -/
def placed (h : Host) (e : Entry) (x : Option Ptr × Dentry) : Bool :=
  Entry.strcpy e.name x.2.dName == e.name &&
    (x.1.bind h.dInode?).any fun j => h.number j == e.localParentIno

/-- The link of an entry: the dentry with its number, its name and its directory.
If no dentry has all three, the link was renamed, and any dentry with the number
may be it. -/
def linksOf (h : Host) (e : Entry) : List (Option Ptr × Dentry) :=
  if (h.numbered e).any (h.placed e) then (h.numbered e).filter (h.placed e) else h.numbered e

theorem mem_nodes_of_mem_linksOf {x : Option Ptr × Dentry} (hx : x ∈ h.linksOf e) :
    x ∈ h.dcache.nodes := by
  unfold linksOf at hx
  split at hx
  · exact List.mem_of_mem_filter (List.mem_of_mem_filter hx)
  · exact List.mem_of_mem_filter hx

/-- The entry that a frame matches. -/
def matched? (h : Host) (c : Control) : Option Entry :=
  h.table.entries[h.table.matchSlot c.ino c.inoParent]?

/-- The link that a frame is about is not found by its name any more. -/
def LinkGone (h : Host) (c : Control) (h' : Host) : Prop :=
  ∀ e, h.matched? c = some e → ∀ p d, (some p, d) ∈ h.linksOf e → ¬ h'.ResolvesTo p d.dName d.ptr

/-- The link that a frame is about is what it was. -/
def LinkSame (h : Host) (c : Control) (h' : Host) : Prop :=
  ∀ e, h.matched? c = some e → ∀ p d, (some p, d) ∈ h.linksOf e →
    h'.dentryOf? d.ptr = h.dentryOf? d.ptr ∧ h'.inodeOf? d.ptr = h.inodeOf? d.ptr

/-! ## all or nothing -/

/-- The entry that a frame matches is free. -/
def EntryFree (h : Host) (c : Control) (h' : Host) : Prop :=
  ∃ e, h'.table.entries[h.table.matchSlot c.ino c.inoParent]? = some e ∧ e.used = false

/-- The entry that a frame matches is what it was. -/
def EntrySame (h : Host) (c : Control) (h' : Host) : Prop :=
  h'.table.entries[h.table.matchSlot c.ino c.inoParent]? =
    h.table.entries[h.table.matchSlot c.ino c.inoParent]?

/-- A remove frame takes away both the link and its entry, or neither. -/
def AllOrNothing (h : Host) (buf : Bytes) (c : Control) : Prop :=
  ∃ h', h.rdmaRemove buf = .ok h' ∧
    (h.LinkGone c h' ∧ h.EntryFree c h' ∨ h.LinkSame c h' ∧ h.EntrySame c h')

/-- The link that a frame is about is unhashed already, or the frame takes it
away: `wjfs_rmdir_rdma` does not give up, and the link is lost with the last
reference to the dentry that is found under the number. -/
def Removes (h : Host) (c : Control) : Prop :=
  ∀ e, h.matched? c = some e → ∀ p d, (some p, d) ∈ h.linksOf e → d.dUnhashed = true ∨
    ∃ f, h.resolved? c = some f ∧ (c.mode = 0 ∨ h.dcache.simpleEmpty f.ptr = true) ∧
      h.dcache.Lost f.ptr d.ptr

/-- The entry is free in any case, so the link must be gone. -/
theorem allOrNothing_iff_linkGone {buf : Bytes} (hparse : parseControl buf = .ok c)
    (hmatch : h.table.matchSlot c.ino c.inoParent < tableSize)
    (hok : h.rdmaRemoveParsed c = .ok h') (htable : h'.table = h.table.release c.ino c.inoParent) :
    h.AllOrNothing buf c ↔ h.LinkGone c h' := by
  obtain ⟨e, he, hused, hfree⟩ := Table.release_matchSlot hmatch
  have hremove : h.rdmaRemove buf = .ok h' := by
    rw [rdmaRemove, hparse]
    exact hok
  constructor
  · rintro ⟨g, hg, ⟨hgone, -⟩ | ⟨-, hsame⟩⟩
    · rw [hremove] at hg
      cases hg
      exact hgone
    · rw [hremove] at hg
      cases hg
      -- the entry was used, and is not
      rw [EntrySame, htable, hfree, he] at hsame
      have := congrArg Entry.used (Option.some.inj hsame)
      simp [hused] at this
  · intro hgone
    exact ⟨h', hremove, .inl ⟨hgone, _, by rw [htable]; exact hfree, rfl⟩⟩

/-- The exact condition, for a sane host. -/
theorem Sane.allOrNothing_iff (hs : h.Sane) {buf : Bytes} (hparse : parseControl buf = .ok c)
    (hmatch : h.table.matchSlot c.ino c.inoParent < tableSize) :
    h.AllOrNothing buf c ↔ h.Removes c := by
  obtain ⟨hnone, hok⟩ | ⟨q, dir, f, i, hr, hok⟩ := rdmaRemoveParsed_inv hs.held.nodup hs.dirs c
  · -- the tree stays as it is
    rw [allOrNothing_iff_linkGone hparse hmatch hok rfl]
    refine forall_congr' fun e => imp_congr_right fun _ => forall_congr' fun p =>
      forall_congr' fun d => imp_congr_right fun hd => ?_
    have hiff := resolvesTo_iff hs.held (mem_nodes_of_mem_linksOf hd)
    rw [show (h.released c).ResolvesTo p d.dName d.ptr ↔ _ from hiff]
    simp [hnone]
  · rw [allOrNothing_iff_linkGone hparse hmatch hok table_removed]
    refine forall_congr' fun e => imp_congr_right fun _ => forall_congr' fun p =>
      forall_congr' fun d => imp_congr_right fun hd => ?_
    rw [resolvesTo_removed_iff hs hr (mem_nodes_of_mem_linksOf hd), hr.found]
    simp only [Option.some.injEq, exists_eq_left']
    by_cases hmode : c.mode = 0 <;> cases d.dUnhashed <;> cases h.dcache.simpleEmpty f.ptr <;>
      simp [hmode]

/-- **Remote removal.**  In every reachable state, a remove frame that matches a
used entry takes away the link and the entry or neither exactly if the link is
gone already or goes with the frame: the dentry that is found under the number
is empty, if the frame says it is a directory, nobody else holds it, and the
link is that dentry or is lost with it. -/
theorem remote_removal_iff (hr : Reach h) {buf : Bytes} (hparse : parseControl buf = .ok c)
    (hmatch : h.table.matchSlot c.ino c.inoParent < tableSize) :
    h.AllOrNothing buf c ↔ h.Removes c := hr.sane.allOrNothing_iff hparse hmatch

end Host

/-! ## examples -/

/-- A fresh mount with a link to a file `x`. -/
def fileLink : Except Fault Host :=
  (Host.mounted 0 0o755 0 Table.initial).play
    [.create true (wjfsClientCreate 8 [120] 1 Host.rootName false) []]

/-- The frame that removes it. -/
def removeX : Bytes := wjfsClientRemove 8 [120] 1 Host.rootName false

theorem parse_removeX : parseControl removeX = .ok ⟨8, [120], 1, Host.rootName, 0⟩ := by
  decide

theorem reach_fileLink {h : Host} (hp : fileLink = .ok h) : Host.Reach h :=
  (Host.Reach.mount 0 0o755 0 Table.initial).play hp

/-- Whether a frame matches an entry, the addresses of the links of that entry,
and the dentry under the number with its references. -/
def removalView (c : Control) (h : Host) : Bool × Option (List Ptr) × Option (Ptr × Int) :=
  (decide (h.table.matchSlot c.ino c.inoParent < tableSize),
    (h.matched? c).map fun e => (h.linksOf e).map fun x => x.2.ptr,
    (h.resolved? c).map fun d => (d.ptr, d.dCount))

/-- The link is what the frame finds and nobody else holds it, so it goes with
its entry. -/
theorem remote_removal_iff_fileLink :
    ∃ h, Host.Reach h ∧ h.AllOrNothing removeX ⟨8, [120], 1, Host.rootName, 0⟩ := by
  have hview : fileLink.toOption.map (removalView ⟨8, [120], 1, Host.rootName, 0⟩) =
      some (true, some [2], some (2, 1)) := by decide
  obtain ⟨h, hp, hv⟩ := exists_of_toOption_map hview
  have hr := reach_fileLink hp
  obtain ⟨hmatch, hv⟩ := Prod.ext_iff.mp hv
  obtain ⟨hlinks, hfound⟩ := Prod.ext_iff.mp hv
  refine ⟨h, hr, (Host.remote_removal_iff hr parse_removeX (of_decide_eq_true hmatch)).mpr ?_⟩
  intro e he p d hd
  obtain ⟨f, hf, hfv⟩ := Option.map_eq_some_iff.mp hfound
  obtain ⟨hptr, hone⟩ := Prod.mk.inj hfv
  have hdp : d.ptr = 2 := by
    have hmem := List.mem_map_of_mem (f := fun x : Option Ptr × Dentry => x.2.ptr) hd
    simp only [removalView, he, Option.map_some, Option.some.injEq] at hlinks
    simpa [hlinks] using hmem
  obtain ⟨hnone, -⟩ | ⟨q, dir, f', i, hres, -⟩ :=
    Host.rdmaRemoveParsed_inv hr.sane.held.nodup hr.sane.dirs ⟨8, [120], 1, Host.rootName, 0⟩
  · rw [hnone] at hf
    cases hf
  · cases hf.symm.trans hres.found
    refine .inr ⟨f, hf, .inl rfl, ?_⟩
    rw [hdp, ← hptr]
    exact .released (.last hres.mem rfl hone)

/-- Which links of the entry that a frame matches are still found by their names
after the frame. -/
def linksLeft (c : Control) (h : Host) : Except Fault (Option (List Bool)) :=
  (h.rdmaRemoveParsed c).map fun h' => (h.matched? c).map fun e => (h.linksOf e).map fun x =>
    x.1.any fun p => (h'.dcache.dLookup p x.2.dName).any (·.ptr == x.2.ptr)

/-- After a run that a host can go through, a remove frame takes away the entry
and leaves the link. -/
def LeavesLink (run : Except Fault Host) (buf : Bytes) : Prop :=
  ∃ h c, run = .ok h ∧ Host.Reach h ∧ parseControl buf = .ok c ∧
    h.table.matchSlot c.ino c.inoParent < tableSize ∧ ¬ h.AllOrNothing buf c

/-- What has to be seen of the run for that. -/
theorem leavesLink_of_left {run : Except Fault Host} {buf : Bytes} {c : Control}
    (hrun : ∀ h, run = .ok h → Host.Reach h) (hparse : parseControl buf = .ok c)
    (hleft : run >>= linksLeft c = .ok (some [true])) : LeavesLink run buf := by
  obtain ⟨h, hh, hok⟩ := bind_eq_ok hleft
  obtain ⟨h', hok, hleft⟩ := map_eq_ok hok
  obtain ⟨e, he, hleft⟩ := Option.map_eq_some_iff.mp hleft
  obtain ⟨⟨q, d⟩, hx, hfound⟩ := List.map_eq_singleton_iff.mp hleft
  have hslot : h.table.matchSlot c.ino c.inoParent < tableSize := by
    obtain ⟨hlt, -⟩ := List.getElem?_eq_some_iff.mp he
    exact h.table.length_eq ▸ hlt
  refine ⟨h, c, hh, hrun h hh, hparse, hslot, fun hall => ?_⟩
  have hgone := (Host.allOrNothing_iff_linkGone hparse hslot hok
    (Host.rdmaRemoveParsed_table hok)).mp hall
  obtain ⟨p, rfl, hfound⟩ := (Option.any_eq_true _ _).mp hfound
  obtain ⟨g, hg, hptr⟩ := (Option.any_eq_true _ _).mp hfound
  exact hgone e he p d (hx ▸ List.mem_singleton_self _) ⟨g, hg, by simpa using hptr⟩

/-- A link to a directory `d` with a link `x` in it. -/
def dirLink : Except Fault Host :=
  (Host.mounted 0 0o755 0 Table.initial).play
    [.create true (wjfsClientCreate 7 [100] 1 Host.rootName true) [],
      .create true (wjfsClientCreate 8 [120] 7 [100] false) []]

/-- The frame that removes `d`. -/
def removeD : Bytes := wjfsClientRemove 7 [100] 1 Host.rootName true

/-- A link to a file `x` that a process has open. -/
def openLink : Except Fault Host := do
  let h ← fileLink
  (h.sysOpen (.server true) [] [120]).map Prod.fst

/-- A link to a file `x` that has a second name `y`. -/
def hardLink : Except Fault Host :=
  (Host.mounted 0 0o755 0 Table.initial).play
    [.create true (wjfsClientCreate 8 [120] 1 Host.rootName false) [],
      .call (.server true) (.link [] [120] [] [121])]

/-- The link to a directory that is not empty stays; so does the link to a file
that is open; and so does the link to a file with a second name, which goes in
its place.  The entries of all three are free. -/
theorem remove_leaves_link :
    LeavesLink dirLink removeD ∧ LeavesLink openLink removeX ∧ LeavesLink hardLink removeX := by
  have hmount := Host.Reach.mount 0 0o755 0 Table.initial
  refine ⟨leavesLink_of_left (c := ⟨7, [100], 1, Host.rootName, 1111⟩) (fun h hh => hmount.play hh)
    (by decide) (by decide), leavesLink_of_left (fun h hh => ?_) parse_removeX
    (by decide), leavesLink_of_left (fun h hh => hmount.play hh) parse_removeX
    (by decide)⟩
  obtain ⟨g, hg, hh⟩ := bind_eq_ok hh
  obtain ⟨⟨_, err⟩, hopen, rfl⟩ := map_eq_ok hh
  exact (reach_fileLink hg).opened hopen

end Wjfs
