import Wjfs.Host.Grow
import Wjfs.Links

/-!
# Wjfs.Ownership

Whose file a dentry is, and where the requests made through it go.

`is_my_file` looks a file up by its number alone, `wjfs_client_read` and
`wjfs_client_write` by its number and that of the directory it lies in.  The
second pair is written down when the link is made, and neither `wjfs_rename`
nor `wjfs_link` touches the table.  `Addressed` is the invariant under which
both lookups find the same entry; `addresses_of_run` says which events keep it.
-/

namespace Wjfs

namespace Host

variable {h h' g : Host} {env : Env} {k p q i dir : Ptr} {n m : CInt} {e : Entry}
  {N : Ptr → Ptr → CInt → Prop} {ev : Event} {op : Op} {err : Option Errno}

/-! ## the invariant -/

/-- The used entries carry a number of the peer, and an entry for the number of
a dentry also has the number of the directory that the dentry is in. -/
structure Addressed (h : Host) : Prop where
  sane : h.Sane
  nonzero : ∀ e ∈ h.table.live, e.rdmaIno ≠ 0
  place : ∀ k p n q m, h.Lies k p n → h.Lies p q m →
    ∀ e ∈ h.table.live, e.localIno = n → e.localParentIno = m

/-- Requests through a link reach the peer's file: the entry that the clients
search for is there, and the frames that they build carry its number. -/
def Addresses (h : Host) : Prop :=
  ∀ k, h.isMyFile k = .ok false → ∃ ino name inoParent nameParent e,
    h.frameFields k = .ok (ino, name, inoParent, nameParent) ∧
    Table.findUsed (Table.localMatch ino inoParent) h.table.entries = some e ∧
    e.used = true ∧ e.localIno = ino ∧ e.rdmaIno ≠ 0 ∧
    h.wjfsClientRead k = .ok (readRequest e.rdmaIno name e.rdmaParentIno nameParent) ∧
    ∀ message, h.wjfsClientWrite k message =
      .ok (writeRequest e.rdmaIno name e.rdmaParentIno nameParent message)

/-- The fields that a frame takes from a dentry in the tree. -/
theorem Sane.frameFields (hs : h.Sane) (hi : h.dInode? k = some i) :
    ∃ name nameParent m, h.frameFields k = .ok (h.number i, name, m, nameParent) ∧
      ∃ p q, h.Lies k p (h.number i) ∧ h.Lies p q m := by
  obtain ⟨⟨o, d⟩, hx, hxi⟩ := Ready.exists_dentry hi
  have hmem := Dcache.mem_nodes_of_node? hx
  have hptr := Dcache.ptr_of_node? hx
  have hlies : h.Lies k (o.getD k) (h.number i) := ⟨_, hmem, i, hptr, rfl, hxi, rfl⟩
  obtain ⟨j, hj⟩ := hlies.dInode? hs
  obtain ⟨y, hy, hyj⟩ := Ready.exists_dentry hj
  obtain ⟨q, hq⟩ := lies_of_dInode? hj
  refine ⟨d.dName, y.2.dName, h.number j, ?_, _, q, hlies, hq⟩
  have hparent : h.dParent k = o.getD k := by
    rw [dParent, hx]
    rfl
  rw [Host.frameFields, hparent, inodeOf?, hi, dName?, hx, inodeOf?, hj, dName?, hy]
  rfl

/-- Under the invariant both lookups agree. -/
theorem Addressed.addresses (ha : h.Addressed) : h.Addresses := by
  intro k hk
  cases hi : h.dInode? k with
  | none =>
      rw [isMyFile, inodeOf?, hi] at hk
      cases hk
  | some i =>
  obtain ⟨name, nameParent, m, hf, p, q, hlies, hparent⟩ := ha.sane.frameFields hi
  rw [isMyFile, inodeOf?, hi] at hk
  have hlink : ¬ h.table.isMyFile (h.number i) = true := fun htrue => by
    rw [show h.table.isMyFile (h.number i) = false from Except.ok.inj hk] at htrue
    cases htrue
  obtain ⟨e₀, he₀, hino₀⟩ : ∃ e ∈ h.table.live, e.localIno = h.number i := by
    by_contra hno
    exact hlink (Table.isMyFile_iff.mpr fun e he heq => hno ⟨e, he, heq⟩)
  have hpar₀ := ha.place _ _ _ _ _ hlies hparent e₀ he₀ hino₀
  -- the entry that is the host's reason to ask its peer fits both numbers
  obtain ⟨e, he⟩ : ∃ e, h.table.live.find? (Table.localMatch (h.number i) m) = some e := by
    refine Option.isSome_iff_exists.mp (List.find?_isSome.mpr ⟨e₀, he₀, ?_⟩)
    simp [Table.localMatch, hino₀, hpar₀]
  have hlive := List.mem_of_find?_eq_some he
  have hmatch := List.find?_some he
  simp only [Table.localMatch, Bool.and_eq_true, beq_iff_eq] at hmatch
  refine ⟨_, name, m, nameParent, e, hf, ?_, (List.mem_filter.mp hlive).2, hmatch.1,
    ha.nonzero e hlive, ?_, fun message => ?_⟩
  · rw [Table.findUsed_eq]
    exact he
  · simp [wjfsClientRead, hf, bind, Except.bind, Table.remote_eq, he]
  · simp [wjfsClientWrite, hf, bind, Except.bind, Table.remote_eq, he]

/-! ## the events that keep it -/

/-- The number drawn next is in no used entry. -/
def Unlisted (h : Host) : Prop := ∀ e ∈ h.table.live, e.localIno ≠ h.lastIno + 1

/-- The number drawn next is no dentry's. -/
def Unnumbered (h : Host) : Prop := ∀ k p n, h.Lies k p n → n ≠ h.lastIno + 1

/-- The test of the used entries. -/
def unlisted (h : Host) : Bool := h.table.live.all fun e => e.localIno != h.lastIno + 1

/-- The test of the dentries. -/
def unnumbered (h : Host) : Bool :=
  h.dcache.nodes.all fun x => x.2.dInode.all fun i => h.number i != h.lastIno + 1

theorem unlisted_of_test (ht : h.unlisted = true) : h.Unlisted := by
  simpa [unlisted, Unlisted] using ht

theorem unnumbered_of_test (ht : h.unnumbered = true) : h.Unnumbered := by
  rintro k p n ⟨x, hx, i, -, -, hi, rfl⟩
  simpa [hi] using List.all_eq_true.mp ht x hx

/-- The event leaves every link in the directory that the table has for it: no
rename takes a link into another directory, be it as the file renamed or as one
that is replaced while it is in use; no hard link to a link is made in another
directory; numbers are drawn that are not in use; and no frame announces a file
with number 0. -/
def KeepsPlaces (h : Host) : Event → Prop
  | .call env (.rename oldPath oldName newPath newName) => ∀ k dir n,
      h.Relocated env oldPath oldName newPath newName k dir n → h.table.isMyFile n = true
  | .call env (.link oldPath oldName path _) => ∀ o p d n, h.walk env h.root oldPath = .ok o →
      h.walk env h.root path = .ok p → h.dcache.dLookup o oldName = some d → h.Lies d.ptr o n →
      p = o ∨ h.table.isMyFile n = true
  | .call _ op => op.Makes → h.Unlisted
  | .create _ buf _ => (∀ c, parseControl buf = .ok c → c.ino ≠ 0) ∧ h.Unlisted ∧ h.Unnumbered
  | .remove _ | .elsewhere _ => True

namespace Addressed

/-- What is added must be in place. -/
theorem grow (ha : h.Addressed) (hg : Grown N h h')
    (hold : ∀ k p n, N k p n → h.dInode? k = none ∨ ∃ q, h.Lies k q n)
    (hnew : ∀ k p n, N k p n → ∀ e ∈ h.table.live, e.localIno = n →
      (∃ i, h.dInode? p = some i) ∧ ∀ q m, h.Lies p q m → e.localParentIno = m) :
    h'.Addressed := by
  refine ⟨hg.sane, fun e he => ha.nonzero e (hg.table ▸ he), fun k p n q m hk hp e he hn => ?_⟩
  rw [hg.table] at he
  -- a directory that was there before has the number it had
  have hparent : (∃ i, h.dInode? p = some i) → ∃ q, h.Lies p q m := fun ⟨i, hi⟩ => by
    rcases hg.places p q m hp with hl | hN
    · exact ⟨q, hl⟩
    · refine (hold p q m hN).resolve_left fun hnone => ?_
      rw [hi] at hnone
      cases hnone
  rcases hg.places k p n hk with hl | hN
  · obtain ⟨q', hq'⟩ := hparent (hl.dInode? ha.sane)
    exact ha.place k p n q' m hl hq' e he hn
  · obtain ⟨hi, hm⟩ := hnew k p n hN e he hn
    obtain ⟨q', hq'⟩ := hparent hi
    exact hm q' m hq'

/-- Nothing is added. -/
theorem same (ha : h.Addressed) (hg : Grown Nowhere h h') : h'.Addressed :=
  ha.grow hg (fun _ _ _ => False.elim) fun _ _ _ => False.elim

/-- A file of the host's own is added. -/
theorem made (ha : h.Addressed) (hfresh : h.Unlisted) (hg : Grown h.Made h h') : h'.Addressed :=
  ha.grow hg (fun _ _ _ hN => .inl hN.1) fun _ _ _ hN e he hn =>
    absurd (hn.trans hN.2) (hfresh e he)

/-- An entry with this number makes it a link's. -/
theorem not_isMyFile (he : e ∈ h.table.live) (hn : e.localIno = n) :
    ¬ h.table.isMyFile n = true := fun hmine => Table.isMyFile_iff.mp hmine e he hn

/-- A dentry has one place and one number. -/
theorem lies_unique (hs : h.Sane) (hl : h.Lies k p n) (hl' : h.Lies k q m) : p = q ∧ n = m := by
  obtain ⟨x, hx, i, hxk, rfl, hxi, rfl⟩ := hl
  obtain ⟨y, hy, j, hyk, rfl, hyj, rfl⟩ := hl'
  obtain rfl : x = y := Forest.eq_of_mem_flat hs.held.nodup hx hy (hxk.trans hyk.symm)
  rw [hxi] at hyj
  exact ⟨rfl, congrArg h.number (Option.some.inj hyj)⟩

theorem call (ha : h.Addressed) (hc : h.KeepsPlaces (.call env op))
    (hok : h.call env op = .ok (h', err)) : h'.Addressed := by
  have hs := ha.sane
  cases op with
  | lookup path name => exact ha.same (sysLookup_grown hs hok)
  | create path name perm => exact ha.made (hc trivial) (sysCreate_grown hs hok)
  | mknod path name special perm => exact ha.made (hc trivial) (sysMknod_grown hs hok)
  | mkdir path name perm => exact ha.made (hc trivial) (sysMkdir_grown hs hok)
  | symlink path name => exact ha.same (sysSymlink_grown hs hok)
  | unlink path name => exact ha.same (sysUnlink_grown hs hok)
  | rmdir path name => exact ha.same (sysRmdir_grown hs hok)
  | link oldPath oldName path name =>
      refine ha.grow (sysLink_grown hs hok) (fun _ _ _ hN => .inl hN.1)
        fun k p n ⟨_, hw, o, d, hwo, hd, hl⟩ e he hn => ?_
      obtain rfl := (hc o p d n hwo hw hd hl).resolve_right (not_isMyFile he hn)
      exact ⟨hl.dInode? hs, fun q m hp => ha.place _ _ _ _ _ hl hp e he hn⟩
  | rename oldPath oldName newPath newName =>
      refine ha.grow (sysRename_grown hs hok) (fun k dir n hN => .inr ?_) fun k dir n hN e he hn =>
        absurd (hc k dir n hN) (not_isMyFile he hn)
      obtain ⟨p, q, -, -, -, ⟨d, -, rfl, -, hl⟩ | ⟨d, -, -, rfl, -, hl⟩⟩ := hN
      · exact ⟨p, hl⟩
      · exact ⟨q, hl⟩

/-- An entry is written for a number that no dentry has yet, and then the
dentry is added. -/
theorem create (ha : h.Addressed) {newInode : Bool} {buf ip : Bytes}
    (hc : h.KeepsPlaces (.create newInode buf ip))
    (hok : h.rdmaCreate (.server newInode) buf ip = .ok h') : h'.Addressed := by
  obtain ⟨c, hparse, hok⟩ := bind_eq_ok hok
  obtain ⟨hzero, hlisted, hnumbered⟩ := hc
  obtain ⟨r⟩ := rdmaCreateParsed_grown ha.sane hok
  obtain ⟨e₀, hperm⟩ := Table.live_insert (fun _ => rfl) r.insert
  have hs := ha.sane
  have hmem : ∀ {e}, e ∈ h'.table.live → e ∈ h.table.live ∨
      e = e₀.fill r.name (h.lastIno + 1) c.ino (h.number r.dir) c.inoParent ip := fun he =>
    (List.mem_cons.mp (hperm.mem_iff.mp he)).symm
  have hwritten : Addressed { h with table := h'.table } := by
    refine ⟨hs.setTable _, fun e he => ?_, fun k p n q m hk hp e he hn => ?_⟩
    · rcases hmem he with he | rfl
      · exact ha.nonzero e he
      · exact hzero c hparse
    · rcases hmem he with he | rfl
      · exact ha.place k p n q m hk hp e he hn
      · exact absurd hn.symm (hnumbered k p n hk)
  have hgrown : Grown (fun k p n => k = r.new ∧ p = r.parent ∧ n = h.lastIno + 1)
      { h with table := h'.table } { r.tree with table := h'.table } :=
    ⟨r.grown.sane.setTable _, r.grown.places, r.grown.file, r.grown.next, rfl⟩
  rw [r.eq]
  refine hwritten.grow hgrown (fun k p n hN => .inl (hN.1 ▸ r.neg)) fun k p n hN e he hn => ?_
  obtain ⟨-, rfl, rfl⟩ := hN
  refine ⟨⟨r.dir, r.parentInode⟩, fun q m hp => ?_⟩
  rcases hmem he with he | rfl
  · exact absurd hn (hlisted e he)
  · obtain ⟨q', hq'⟩ := lies_of_dInode? r.parentInode
    exact (lies_unique hs hq' hp).2

theorem remove (ha : h.Addressed) {buf : Bytes} (hok : h.rdmaRemove buf = .ok h') :
    h'.Addressed := by
  obtain ⟨c, -, hok⟩ := bind_eq_ok hok
  have hs := ha.sane
  have hmem : ∀ e ∈ (h.released c).table.live, e ∈ h.table.live := fun e he => by
    cases hf : h.table.live.find? (Table.rdmaMatch c.ino c.inoParent) with
    | none =>
        rw [Table.live, released, Table.release_of_none hf] at he
        exact he
    | some e' => exact (Table.live_release hf).mem_iff.mpr (List.mem_cons_of_mem _ he)
  have hreleased : (h.released c).Addressed :=
    ⟨hs.setTable _, fun e he => ha.nonzero e (hmem e he),
      fun k p n q m hk hp e he hn => ha.place k p n q m hk hp e (hmem e he) hn⟩
  exact hreleased.same (hreleased.sane.grown_of_fades (rdmaRemoveParsed_fades hs hok))

theorem step (ha : h.Addressed) (hc : h.KeepsPlaces ev) (hok : h.step ev = .ok h') :
    h'.Addressed := by
  cases ev with
  | call env op =>
      obtain ⟨⟨g, err⟩, hcall, rfl⟩ := map_eq_ok hok
      exact ha.call hc hcall
  | create newInode buf ip => exact ha.create hc hok
  | remove buf => exact ha.remove hok
  | elsewhere n =>
      have hs : h'.Sane := ha.sane.step hok
      cases hok
      exact ⟨hs, ha.nonzero, ha.place⟩

theorem of_mounted (lastIno : CInt) (perm : BitVec 12) (nextPtr : Ptr) (table : Table) :
    (mounted lastIno perm nextPtr table).Addressed := by
  have hlive : (mounted lastIno perm nextPtr table).table.live = [] := Table.live_clear
  refine ⟨sane_mounted lastIno perm nextPtr table, ?_, ?_⟩
  · simp [hlive]
  · simp [hlive]

end Addressed

/-- **Ownership test and address lookup.**  In every state of a run whose events
all leave the links in their places, every dentry that is not the host's own
has a used entry with its number and its parent's, and the requests made
through it carry a number of the peer other than 0. -/
theorem addresses_of_run (hr : Run KeepsPlaces h) : h.Addresses := by
  suffices h.Addressed from this.addresses
  induction hr with
  | mount lastIno perm nextPtr table => exact .of_mounted lastIno perm nextPtr table
  | step _ hc hok ih => exact ih.step hc hok

end Host

/-! ## links that move -/

/-- `mkdir("/d")`. -/
def mkdirD : Event := .call (Env.server true) (.mkdir [] [100] 0o755)

/-- `rename("/x", "/y")`. -/
def renameXToY : Event := .call (Env.server true) (.rename [] [120] [] [121])

/-- The peer announces `x`, and the host makes `d` and renames the link to `y`
where it is. -/
theorem addresses_of_run_renamed :
    ∃ h, Host.Run Host.KeepsPlaces h ∧ h.isMyFile 2 = .ok false ∧ h.Addresses := by
  have hlink : ((Host.mounted 0 0o755 0 Table.initial).step linkXFrame).toOption.map
      (fun h => (h.unlisted, h.root)) = some (true, 0) := by decide +kernel
  have hdir : ((Host.mounted 0 0o755 0 Table.initial).step linkXFrame >>= fun h =>
      h.step mkdirD).toOption.map (fun h => h.root) = some 0 := by decide
  have hname : (((Host.mounted 0 0o755 0 Table.initial).step linkXFrame >>= fun h =>
      h.step mkdirD) >>= fun h => h.step renameXToY).toOption.map
      (fun h => (h.isMyFile 2).toOption) = some (some false) := by decide
  have hparse : (parseControl (wjfsClientCreate 7 [120] 1 Host.rootName false)).toOption.map
      (fun c => c.ino) = some 7 := by decide
  obtain ⟨c, hc, hino⟩ := exists_of_toOption_map hparse
  obtain ⟨h₁, hh₁, hval₁⟩ := exists_of_toOption_map hlink
  obtain ⟨h₂, hh₂, -⟩ := exists_of_toOption_map hdir
  obtain ⟨h₃, hh₃, hval₃⟩ := exists_of_toOption_map hname
  rw [hh₂] at hh₃
  rw [hh₁] at hh₂
  simp only [Prod.mk.injEq] at hval₁
  have hrun₁ : Host.Run Host.KeepsPlaces h₁ := by
    refine .step (e := linkXFrame) (.mount 0 0o755 0 Table.initial) ⟨fun c' hc' => ?_, ?_, ?_⟩ hh₁
    · obtain rfl : c = c' := Except.ok.inj (hc.symm.trans hc')
      rw [hino]
      decide
    · exact Host.unlisted_of_test (by decide +kernel)
    · exact Host.unnumbered_of_test (by decide)
  have hrun₂ : Host.Run Host.KeepsPlaces h₂ :=
    hrun₁.step (e := mkdirD) (fun _ => Host.unlisted_of_test hval₁.1) hh₂
  have hrun₃ : Host.Run Host.KeepsPlaces h₃ := by
    refine hrun₂.step (e := renameXToY) (fun k dir n hmoved => ?_) hh₃
    obtain ⟨p, q, hp, hq, hne, -⟩ := hmoved
    exact absurd (Except.ok.inj (hp.symm.trans hq)) hne
  obtain ⟨b, hb, rfl⟩ := exists_of_toOption_map (f := id) (by simpa using hval₃)
  exact ⟨h₃, hrun₃, hb, Host.addresses_of_run hrun₃⟩

/-- `rename("/x", "/d/x")`. -/
def renameXIntoD : Event := .call (Env.server true) (.rename [] [120] [[100]] [120])

/-- `link("/x", "/d/y")`. -/
def linkXIntoD : Event := .call (Env.server true) (.link [] [120] [[100]] [121])

/-- What `cat` of a dentry asks the peer for, if the dentry is a link. -/
def askedThrough (k : Ptr) (h : Host) : Option Bool × Option Bytes :=
  ((h.isMyFile k).toOption, (h.wjfsClientRead k).toOption)

/-- A link that was renamed into another directory, or got a second name in
one, is still not the host's own, but the request made through the new name
asks for the file with number 0. -/
theorem moved_link_asks_for_zero :
    ((Host.mounted 0 0o755 0 Table.initial).play [linkXFrame, mkdirD, renameXIntoD]).toOption.map
        (askedThrough 2) = some (some false, some (readRequest 0 [120] 0 [100])) ∧
      ((Host.mounted 0 0o755 0 Table.initial).play [linkXFrame, mkdirD, linkXIntoD]).toOption.map
        (askedThrough 6) = some (some false, some (readRequest 0 [121] 0 [100])) := by
  constructor
  · decide +kernel
  · decide +kernel

end Wjfs
