import Wjfs.Dcache.Release
import Wjfs.Host.Faults
import Wjfs.Reach
import Wjfs.Server

/-!
# Wjfs.Survival

Which requests the server thread survives.

`wjfs_server` takes whatever bytes come in on its port.  The parsers store past
their rows when a request has the wrong shape, a create request can fail in all
the ways of `placeFault`, and the answer to a read is itself run through the
other handlers.  A write request harms nothing once it was parsed, whatever it
names.  A remove request for a directory may free the inode of the directory
above and write to it: `FreesDir`.
-/

namespace Wjfs

namespace Host

variable {h g : Host} {stale : Stale} {ip buf : Bytes} {newInode : Bool} {c : Control}
  {p dir i : Ptr} {d : Dentry}

/-! ## the inode of the directory above -/

/-- A remove request that says it is for a directory finds one without children,
and every dentry of the directory above is lost with it.  Then `drop_nlink(dir)`
meets an inode that is no longer there. -/
def FreesDir (h : Host) (c : Control) : Prop :=
  c.mode ≠ 0 ∧ ∃ p dir d i, h.Resolved c p dir d i ∧ h.dcache.simpleEmpty d.ptr = true ∧
    ∀ x ∈ h.dcache.nodes, x.2.dInode = some dir → h.dcache.Lost d.ptr x.2.ptr

theorem rmdirFreesDir_iff (hs : h.Sane) (hd : (some p, d) ∈ h.dcache.nodes) :
    h.rmdirFreesDir dir d.ptr = true ↔ h.dcache.simpleEmpty d.ptr = true ∧
      ∀ x ∈ h.dcache.nodes, x.2.dInode = some dir → h.dcache.Lost d.ptr x.2.ptr := by
  obtain ⟨hwithin, hstays⟩ := Dcache.dput_spec hs.held hd
  simp only [rmdirFreesDir, Bool.and_eq_true, List.all_eq_true, bne_iff_ne]
  refine and_congr_right fun _ => ⟨fun hall x hx hdir => ?_, fun hall y hy hdir => ?_⟩
  · -- a dentry that stays keeps its inode
    by_contra hlost
    obtain ⟨y, hy, hptr⟩ := Forest.exists_mem_flat ((hstays x hx).mpr hlost) none
    obtain ⟨b, hb⟩ := hwithin y hy
    cases Forest.eq_of_mem_flat hs.held.nodup hb hx hptr
    exact hall y hy hdir
  · obtain ⟨b, hb⟩ := hwithin y hy
    exact (hstays _ hb).mp (show y.2.ptr ∈ _ from Dcache.mem_ptrs_of_mem hy) (hall _ hb hdir)

theorem removeUsesFreed_iff (hs : h.Sane) : h.removeUsesFreed c = true ↔ h.FreesDir c := by
  unfold removeUsesFreed FreesDir
  rw [Bool.and_eq_true, bne_iff_ne]
  refine and_congr_right fun _ => ?_
  obtain ⟨hnone, -⟩ | ⟨p, dir, d, i, hr, -⟩ := rdmaRemoveParsed_inv hs.held.nodup hs.dirs c
  · have hfind : h.findDentryByIno h.root (h.table.myIno c.ino c.inoParent) = none := hnone
    rw [hfind]
    refine iff_of_false (by simp) ?_
    rintro ⟨p, dir, d, i, hr, -⟩
    exact Option.some_ne_none _ (hr.found.symm.trans hnone)
  · have hfind : h.findDentryByIno h.root (h.table.myIno c.ino c.inoParent) = some d := hr.found
    have hpar : h.dParent d.ptr = p := by
      have hnode : h.dentryOf? d.ptr = some (some p, d) := Dcache.node?_of_mem hs.held.nodup hr.mem
      simp [dParent, hnode]
    rw [hfind, Option.any_some, hpar, hr.parent, Option.any_some, rmdirFreesDir_iff hs hr.mem]
    constructor
    · exact fun hfrees => ⟨p, dir, d, i, hr, hfrees⟩
    · rintro ⟨p', dir', d', i', hr', hfrees⟩
      cases hr.found.symm.trans hr'.found
      have heq : ((some p, d) : Option Ptr × Dentry) = (some p', d) :=
        Forest.eq_of_mem_flat hs.held.nodup hr.mem hr'.mem rfl
      cases heq
      cases hr.parent.symm.trans hr'.parent
      exact hfrees

/-- While every dentry is pinned, a directory has a reference of its own besides
those of its children, and stays. -/
theorem Tidy.not_freesDir {pin : Ptr → Nat} (ht : h.Tidy pin) (hpin : ∀ k, 1 ≤ pin k)
    (c : Control) : ¬ h.FreesDir c := by
  rintro ⟨-, p, dir, d, i, hr, -, hall⟩
  obtain ⟨x, hnode, hdir⟩ := Ready.exists_dentry hr.parent
  have hx := Dcache.mem_nodes_of_node? hnode
  have hptr := Dcache.ptr_of_node? hnode
  have hlost := hall x hx hdir
  rw [hptr, Dcache.lost_parent_iff ht.sound.nodup hr.mem hx hptr] at hlost
  have hcount := ht.sound.count x hx
  have hkids := Dcache.kids_pos_of_mem hr.mem
  have := hpin p
  rw [hptr] at hcount
  omega

/-! ## one request -/

/-- The three handlers after the one for reads get through with a buffer. -/
structure Handles (h : Host) (newInode : Bool) (buf : Bytes) : Prop where
  write : buf.take 2 = tagWR → ∃ req, parseWrite buf = .ok req
  create : buf.take 2 = tagCR → newInode = true ∧ h.table.live.length < tableSize ∧
    ∃ c, parseControl buf = .ok c ∧ ∃ parent dir, h.Place c parent dir
  remove : buf.take 2 = tagRM → ∃ c, parseControl buf = .ok c ∧ ¬ h.FreesDir c

/-- A pass of the server gets through: the request has the shape that its tag
asks for, a create request finds a place and a free entry, a remove request
leaves the directory above, and what a read brings back fits the stack and gets
through the other handlers. -/
structure Survives (h : Host) (newInode : Bool) (stale : Stale) (buf : Bytes) : Prop where
  read : buf.take 2 = tagRD → ∃ req, parseRead buf = .ok req ∧
    ∀ d i, h.findDentryByIno h.root req.ino = some d → d.dInode = some i →
      ∃ reply, getFileMessage stale (h.inodes i) = .ok reply ∧ h.Handles newInode reply
  other : buf.take 2 ≠ tagRD → h.Handles newInode buf

/-- The search by number only stops at a dentry with an inode. -/
theorem exists_inode_of_findDentryByIno {k : Ptr} {ino : CInt} {d : Dentry}
    (hd : h.findDentryByIno k ino = some d) : ∃ i, d.dInode = some i ∧ (h.inodes i).iIno = ino := by
  rw [findDentryByIno, findSubdirs_eq] at hd
  have hany := List.find?_some hd
  obtain ⟨i, hi, hino⟩ := (Option.any_eq_true _ _).mp hany
  exact ⟨i, hi, beq_iff_eq.mp hino⟩

theorem rdmaWrite_ok_iff : (∃ g, h.rdmaWrite buf = .ok g) ↔ ∃ req, parseWrite buf = .ok req := by
  unfold rdmaWrite
  cases parseWrite buf with
  | error e => simp [bind, Except.bind]
  | ok req =>
      refine iff_of_true ?_ ⟨req, rfl⟩
      simp only [bind, Except.bind]
      cases hd : h.findDentryByIno h.root req.ino with
      | none => exact ⟨h, rfl⟩
      | some d =>
          obtain ⟨i, hi, -⟩ := exists_inode_of_findDentryByIno hd
          simp only [hi]
          exact ⟨_, rfl⟩

theorem rdmaRemove_ok_iff (hs : h.Sane) :
    (∃ g, h.rdmaRemove buf = .ok g) ↔ ∃ c, parseControl buf = .ok c := by
  unfold rdmaRemove
  cases parseControl buf with
  | error e => simp [bind, Except.bind]
  | ok c =>
      refine iff_of_true ?_ ⟨c, rfl⟩
      obtain ⟨-, hok⟩ | ⟨p, dir, d, i, -, hok⟩ := rdmaRemoveParsed_inv hs.held.nodup hs.dirs c
      · exact ⟨_, hok⟩
      · exact ⟨_, hok⟩

theorem rdmaCreate_ok_iff (hs : h.Sane) :
    (∃ g, h.rdmaCreate (.server newInode) buf ip = .ok g) ↔
      newInode = true ∧ h.table.live.length < tableSize ∧
        ∃ c, parseControl buf = .ok c ∧ ∃ parent dir, h.Place c parent dir := by
  unfold rdmaCreate
  cases parseControl buf with
  | error e => simp [bind, Except.bind]
  | ok c =>
      have hplace := @placeFault_eq_none_iff h c hs newInode
      have herr := fun e => rdmaCreateParsed_error_iff (e := e) hs (.server newInode) c ip
      simp only [bind, Except.bind, Except.ok.injEq, exists_eq_left']
      cases hres : h.rdmaCreateParsed (.server newInode) c ip with
      | error e =>
          refine iff_of_false (by simp) fun ⟨hmem, hroom, hex⟩ => ?_
          rcases (herr e).mp hres with hf | ⟨-, hfull, -⟩
          · rw [hplace.mpr ⟨hmem, hex⟩] at hf
            cases hf
          · omega
      | ok g =>
          refine iff_of_true ⟨g, rfl⟩ ?_
          have hnone : placeFault (.server newInode) h c = none := by
            cases hf : placeFault (.server newInode) h c with
            | none => rfl
            | some e =>
                rw [(herr e).mpr (.inl hf)] at hres
                cases hres
          obtain ⟨hmem, hex⟩ := hplace.mp hnone
          refine ⟨hmem, Nat.lt_of_not_le fun hfull => ?_, hex⟩
          rw [(herr .outOfBounds).mpr (.inr ⟨hnone, hfull, rfl⟩)] at hres
          cases hres

theorem exists_map_ok {ε α β : Type} {x : Except ε α} {f : α → β} :
    (∃ b, x.map f = .ok b) ↔ ∃ a, x = .ok a := by
  cases x with
  | error e => simp [Except.map]
  | ok a => simp [Except.map]

/-- The handlers after the one for reads. -/
theorem rest_ok_iff {r : Pass} (hs : r.host.Sane) :
    ((∃ r', r.rest (.server newInode) ip buf = .ok r') ∧ r.host.usesFreed buf = false) ↔
      r.host.Handles newInode buf := by
  by_cases hm : buf.take 2 = tagRM
  · have hfreed : r.host.usesFreed buf =
        (parseControl buf).toOption.any r.host.removeUsesFreed := by
      simp [usesFreed, hm]
    have hiff : ((∃ c, parseControl buf = .ok c) ∧ r.host.usesFreed buf = false) ↔
        ∃ c, parseControl buf = .ok c ∧ ¬ r.host.FreesDir c := by
      rw [hfreed]
      cases parseControl buf with
      | error e => simp
      | ok c => simp [Except.toOption, ← removeUsesFreed_iff hs]
    rw [Pass.rest_remove hm, exists_map_ok, rdmaRemove_ok_iff hs, hiff]
    refine ⟨fun hok => ⟨fun hw => ?_, fun hc => ?_, fun _ => hok⟩, fun hh => hh.remove hm⟩
    · exact absurd (hm.symm.trans hw) (by decide)
    · exact absurd (hm.symm.trans hc) (by decide)
  rw [usesFreed_of_ne hm, and_iff_left rfl]
  by_cases hw : buf.take 2 = tagWR
  · rw [Pass.rest_write hw, exists_map_ok, rdmaWrite_ok_iff]
    exact ⟨fun hok => ⟨fun _ => hok, fun hc => absurd (hw.symm.trans hc) (by decide),
      fun hm' => absurd hm' hm⟩, fun hh => hh.write hw⟩
  by_cases hc : buf.take 2 = tagCR
  · rw [Pass.rest_create hc, exists_map_ok, rdmaCreate_ok_iff hs]
    exact ⟨fun hok => ⟨fun hw' => absurd hw' hw, fun _ => hok, fun hm' => absurd hm' hm⟩,
      fun hh => hh.create hc⟩
  · rw [Pass.rest_none (by simp [hw, hc, hm])]
    exact iff_of_true ⟨r, rfl⟩ ⟨fun hw' => absurd hw' hw, fun hc' => absurd hc' hc,
      fun hm' => absurd hm' hm⟩

/-- What is sent back for a file that is not found is the request itself, which
no handler takes for its own. -/
theorem handles_of_tagRD (hb : buf.take 2 = tagRD) : h.Handles newInode buf := by
  refine ⟨fun hw => ?_, fun hc => ?_, fun hm => ?_⟩
  · exact absurd (hb.symm.trans hw) (by decide)
  · exact absurd (hb.symm.trans hc) (by decide)
  · exact absurd (hb.symm.trans hm) (by decide)

/-- **Which requests the server survives**, in every state that a host can get
into, and for any bytes. -/
theorem pass_ok_iff (hs : h.Sane) :
    (∃ r, h.pass (.server newInode) stale ip buf = .ok r) ↔ h.Survives newInode stale buf := by
  have hrest : ∀ b, ((∃ r, Pass.rest (.server newInode) ip b (h.begun buf b) = .ok r) ∧
      h.usesFreed b = false) ↔ h.Handles newInode b := fun b => by
    have hhost : (h.begun buf b).host = h := host_begun ..
    have hsane : (h.begun buf b).host.Sane := hhost.symm ▸ hs
    simpa only [hhost] using rest_ok_iff hsane
  rw [exists_pass_ok_iff]
  simp only [hrest]
  unfold handed
  by_cases hb : buf.take 2 = tagRD
  swap
  · rw [if_neg hb]
    constructor
    · rintro ⟨b, hb', hh⟩
      cases hb'
      exact ⟨fun hrd => absurd hrd hb, fun _ => hh⟩
    · exact fun hv => ⟨buf, rfl, hv.other hb⟩
  rw [if_pos hb]
  unfold rdmaRead
  constructor
  · rintro ⟨reply, hread, hh⟩
    obtain ⟨req, hreq, hread⟩ := bind_eq_ok hread
    refine ⟨fun _ => ⟨req, hreq, fun d i hd hi => ?_⟩, fun hb' => absurd hb hb'⟩
    simp only [hd, hi] at hread
    exact ⟨reply, hread, hh⟩
  · intro hv
    obtain ⟨req, hreq, hfile⟩ := hv.read hb
    rw [hreq]
    simp only [bind, Except.bind]
    cases hd : h.findDentryByIno h.root req.ino with
    | none => exact ⟨buf, rfl, handles_of_tagRD hb⟩
    | some d =>
        obtain ⟨i, hi, -⟩ := exists_inode_of_findDentryByIno hd
        simp only [hi]
        exact hfile d i hd hi

/-! ## the loop -/

/-- A request with what it meets at the server: whether there is memory for an
inode, what the stack holds, and the address it came from. -/
structure Request where
  newInode : Bool
  stale : Stale
  ip : Bytes
  buf : Bytes

/-- A pass of the server is something that can happen to a host. -/
theorem Reach.pass {r : Pass} (hr : Reach h)
    (hok : h.pass (.server newInode) stale ip buf = .ok r) : Reach r.host := by
  obtain ⟨hserve, -⟩ := pass_eq_ok_iff.mp hok
  rw [serve_eq] at hserve
  obtain ⟨b, -, hrest⟩ := bind_eq_ok hserve
  have hs : Reach (h.begun buf b).host := by
    rw [host_begun]
    exact hr
  generalize h.begun buf b = s at hs hrest
  by_cases hw : b.take 2 = tagWR
  · rw [Pass.rest_write hw] at hrest
    obtain ⟨g, hg, rfl⟩ := map_eq_ok hrest
    exact hs.written hg
  by_cases hc : b.take 2 = tagCR
  · rw [Pass.rest_create hc] at hrest
    obtain ⟨g, hg, rfl⟩ := map_eq_ok hrest
    exact hs.event (e := .create newInode b ip) hg
  by_cases hm : b.take 2 = tagRM
  · rw [Pass.rest_remove hm] at hrest
    obtain ⟨g, hg, rfl⟩ := map_eq_ok hrest
    exact hs.event (e := .remove b) hg
  · rw [Pass.rest_none (by simp [hw, hc, hm])] at hrest
    cases hrest
    exact hs

end Host

/-! ## a fresh mount -/

/-- A request to a server with memory and a stack full of zeros. -/
def request (buf : Bytes) : Host.Request := ⟨true, zeroStack, [], buf⟩

end Wjfs
