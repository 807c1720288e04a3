import Mathlib.Data.List.Perm.Basic
import Wjfs.Links
import Wjfs.Server

/-!
# Wjfs.Mounts

The module with its globals: `rroot_dentry`, the mapping table and the server
thread outlive any one mount.

`wjfs_fill_super` points the globals at the instance it mounts and clears the
table; nothing is undone when an instance goes.  The server thread runs from
`init_wjfs` on, whatever is mounted.
-/

namespace Wjfs

namespace Host

variable {h h' : Host} {env : Env} {stale : Stale} {c : Control} {ip buf : Bytes}

/-! ## the links of one instance -/

/-- The numbers of the dentries in a list that are not the root's. -/
def numbersOf (number : Ptr → CInt) (l : List (Option Ptr × Dentry)) : List CInt :=
  l.filterMap fun x => x.1.bind fun _ => x.2.dInode.map number

/-- The numbers of the dentries below the root, one for each. -/
def numbers (h : Host) : List CInt := numbersOf h.number h.dcache.bare

theorem mem_numbers {n : CInt} : n ∈ h.numbers ↔ ∃ p d i, h.Node p d i ∧ h.number i = n := by
  unfold numbers numbersOf Dcache.bare
  simp only [List.filterMap_map, List.mem_filterMap, Function.comp_apply, Dcache.strip,
    Option.bind_eq_some_iff, Option.map_eq_some_iff]
  constructor
  · rintro ⟨⟨p, d⟩, hx, q, rfl, i, hi, rfl⟩
    exact ⟨q, d, i, ⟨hx, hi⟩, rfl⟩
  · rintro ⟨p, d, i, hd, rfl⟩
    exact ⟨(some p, d), hd.mem, p, rfl, i, hd.inode, rfl⟩

/-- The numbers are those of the inodes that dentries have. -/
theorem numbersOf_congr {f g : Ptr → CInt} {l : List (Option Ptr × Dentry)}
    (hfg : ∀ x ∈ l, ∀ i, x.2.dInode = some i → f i = g i) : numbersOf f l = numbersOf g l := by
  refine List.filterMap_congr fun x hx => ?_
  cases hi : x.2.dInode with
  | none => rfl
  | some i => simp [hfg x hx i hi]

theorem numbersOf_cons {f : Ptr → CInt} {l l' : List (Option Ptr × Dentry)} {p i : Ptr} {d : Dentry}
    (hi : d.dInode = some i) (hl : l.Perm (Dcache.strip (some p, d) :: l')) :
    (numbersOf f l).Perm (f i :: numbersOf f l') := by
  have hperm := hl.filterMap fun x : Option Ptr × Dentry => x.1.bind fun _ => x.2.dInode.map f
  rwa [List.filterMap_cons_some (b := f i) (by simp [Dcache.strip, Dentry.withCount, hi])] at hperm

/-- A host in order without open files that has an entry in use for each of
its dentries below the root. -/
structure Backed (h : Host) : Prop where
  tidy : h.Tidy h.onePin
  files : h.files = []
  entries : h.numbers.Subperm (h.table.live.map Entry.localIno)

/-- What a handler leaves alone. -/
structure Serves (h h' : Host) : Prop where
  root : h'.root = h.root
  files : h'.files = h.files
  outbox : h'.outbox = h.outbox
  next : h.nextPtr ≤ h'.nextPtr

theorem Serves.onePin (hs : Serves h h') : h'.onePin = h.onePin := by
  unfold Host.onePin
  rw [hs.root]

theorem Serves.refl (h : Host) : Serves h h := ⟨rfl, rfl, rfl, Nat.le_refl _⟩

namespace Backed

/-- Each dentry below the root has an entry. -/
theorem exists_entry (hb : h.Backed) {p i : Ptr} {d : Dentry} (hd : h.Node p d i) :
    ∃ e ∈ h.table.live, e.localIno = h.number i :=
  List.mem_map.mp (hb.entries.subset (mem_numbers.mpr ⟨p, d, i, hd, rfl⟩))

/-- What an inode holds, and how many links it has, does not matter. -/
theorem setInode (hb : h.Backed) {g : Inode → Inode} (hg : ∀ n, (g n).SameKind n) (i : Ptr) :
    (h.setInode i g).Backed := by
  have hnum : (h.setInode i g).numbers = h.numbers :=
    numbersOf_congr fun _ _ j _ => number_setInode fun n => (hg n).2.2
  refine ⟨hb.tidy.setInode fun _ _ _ => hg _, hb.files, ?_⟩
  rw [hnum]
  exact hb.entries

theorem dropNlink (hb : h.Backed) (i : Ptr) : (h.setInode i Inode.dropNlink).Backed :=
  hb.setInode (g := Inode.dropNlink) (fun _ => ⟨rfl, rfl, rfl⟩) i

/-- A link more, and an entry for it. -/
theorem create (hb : h.Backed) {newInode : Bool}
    (hok : h.rdmaCreate (.server newInode) buf ip = .ok h') : h'.Backed ∧ Serves h h' := by
  obtain ⟨c, -, hok⟩ := bind_eq_ok hok
  obtain ⟨dir, di, table, hl, hins, rfl⟩ := rdmaCreateParsed_cases hb.tidy.ready hok
  have hs : Serves h (h.linked dir di c table) := ⟨rfl, rfl, rfl, Nat.le_add_right _ _⟩
  refine ⟨⟨?_, hb.files, ?_⟩, hs⟩
  · rw [hs.onePin, ← update_onePin hb.tidy.nextPtr_ne_root]
    exact hb.tidy.linked hl table
  · obtain ⟨e, hperm⟩ := Table.live_insert (fun _ => rfl) hins
    obtain ⟨z, hz, -⟩ := Ready.exists_dentry hl.inode
    have hbare := Dcache.bare_plant
      (d := (liveDentry h.nextPtr c.name (h.nextPtr + 1)).withCount 1) hb.tidy.sound.nodup
      (Dcache.mem_ptrs_of_node? hz)
    have hold : numbersOf (h.linked dir di c table).number h.dcache.bare = h.numbers := by
      refine numbersOf_congr fun x hx i hi => ?_
      obtain ⟨y, hy, rfl⟩ := Dcache.exists_of_mem_bare hx
      have hne : i ≠ h.nextPtr + 1 :=
        Nat.ne_of_lt (Nat.lt_succ_of_lt (hb.tidy.ready.inode_lt y hy i hi))
      simp [number, Host.linked, made, madeIn, hne]
    have hnum : (h.linked dir di c table).number (h.nextPtr + 1) = h.lastIno + 1 := by
      simp [number, Host.linked, made, madeIn]
    have hnew : (h.linked dir di c table).numbers.Perm ((h.lastIno + 1) :: h.numbers) := by
      rw [← hold, ← hnum]
      exact numbersOf_cons rfl hbare
    exact hnew.subperm.trans (((List.subperm_cons _).mpr hb.entries).trans
      (hperm.map Entry.localIno).symm.subperm)

/-- The number that a remove frame looks for in vain is no dentry's. -/
theorem myIno_not_mem (hb : h.Backed) (hnone : h.resolved? c = none) :
    h.table.myIno c.ino c.inoParent ∉ h.numbers := by
  intro hm
  obtain ⟨p, d, i, hd, hi⟩ := mem_numbers.mp hm
  rw [resolved?, findDentryByIno, findSubdirs_eq, List.find?_eq_none] at hnone
  refine hnone d (hb.tidy.mem_visit_iff.mpr ⟨p, hd.mem⟩) ?_
  rw [hd.inode]
  exact beq_iff_eq.mpr hi

/-- At most the entry with that number is freed. -/
theorem erase_live (h : Host) (c : Control) :
    ((h.table.live.map Entry.localIno).erase (h.table.myIno c.ino c.inoParent)).Subperm
      ((h.released c).table.live.map Entry.localIno) := by
  rw [Table.myIno_eq]
  cases hf : h.table.live.find? (Table.rdmaMatch c.ino c.inoParent) with
  | none =>
      have hsame : (h.released c).table.live = h.table.live :=
        congrArg (List.filter Entry.used) (Table.release_of_none hf)
      rw [hsame]
      exact List.erase_subperm _ _
  | some e =>
      have hperm := (Table.live_release hf).map Entry.localIno
      have herase := hperm.erase e.localIno
      rw [List.map_cons, List.erase_cons_head] at herase
      exact herase.subperm

/-- What a remove frame leaves that resolves to a leaf, whatever its flag
says. -/
theorem removed (hb : h.Backed) {p dir i : Ptr} {d : Dentry} (hr : h.Resolved c p dir d i)
    (h0 : h.dcache.kids d.ptr = 0) :
    (h.removed c dir d i).Backed ∧ Serves h (h.removed c dir d i) := by
  have hnum : h.numbers.Perm
      (h.number i :: ((h.released c).pruned p d.ptr).numbers) :=
    numbersOf_cons hr.inode (hb.tidy.bare_pruned hr.mem h0 (one_le_onePin p))
  have herase := hnum.erase (h.number i)
  rw [List.erase_cons_head] at herase
  have hb' : ((h.released c).pruned p d.ptr).Backed := by
    refine ⟨(hb.tidy.released c).pruned hr.mem h0, hb.files, ?_⟩
    have hlive := erase_live h c
    rw [← hr.ino] at hlive
    exact (herase.symm.subperm.trans (hb.entries.erase _)).trans hlive
  rw [removed_eq hb.tidy hr h0 (by simp [hb.files])]
  dsimp only
  split
  · exact ⟨((hb'.dropNlink i).dropNlink i).dropNlink dir, rfl, rfl, rfl, Nat.le_refl _⟩
  · exact ⟨hb'.dropNlink i, rfl, rfl, rfl, Nat.le_refl _⟩

/-- A link less, and no entry but its own: a remove frame that resolves to no
dentry with children. -/
theorem remove (hb : h.Backed)
    (hleaf : ∀ c, parseControl buf = .ok c → ∀ d, h.resolved? c = some d → h.dcache.kids d.ptr = 0)
    (hok : h.rdmaRemove buf = .ok h') : h'.Backed ∧ Serves h h' := by
  obtain ⟨c, hc, hok⟩ := bind_eq_ok hok
  obtain ⟨hnone, heq⟩ | ⟨p, dir, d, i, hr, heq⟩ := rdmaRemoveParsed_eq hb.tidy c
  · rw [heq] at hok
    cases hok
    refine ⟨⟨hb.tidy.released c, hb.files, ?_⟩, rfl, rfl, rfl, Nat.le_refl _⟩
    have herase := (hb.entries.erase (h.table.myIno c.ino c.inoParent)).trans (erase_live h c)
    rwa [List.erase_of_not_mem (hb.myIno_not_mem hnone)] at herase
  · rw [heq] at hok
    cases hok
    exact hb.removed hr (hleaf c hc d hr.found)

/-- A write changes the contents of a file. -/
theorem write (hb : h.Backed) (hok : h.rdmaWrite buf = .ok h') : h'.Backed ∧ Serves h h' := by
  obtain ⟨req, -, hok⟩ := bind_eq_ok hok
  split at hok
  · cases hok
    exact ⟨hb, Serves.refl h⟩
  · split at hok
    · cases hok
    · next i _ =>
        cases hok
        exact ⟨hb.setInode (g := putFileMessage req.message) (fun _ => ⟨rfl, rfl, rfl⟩) i,
          rfl, rfl, rfl, Nat.le_refl _⟩

end Backed

/-- If `rdma_remove` runs in a pass, what it finds has no children. -/
def RemovesLeaf (h : Host) (stale : Stale) (buf : Bytes) : Prop :=
  ∀ b ∈ (h.handed stale buf).toOption, b.take 2 = tagRM →
    ∀ c ∈ (parseControl b).toOption, ∀ d ∈ h.resolved? c, h.dcache.kids d.ptr = 0

instance : Decidable (h.RemovesLeaf stale buf) := by unfold RemovesLeaf; infer_instance

/-- A pass keeps an entry for every link. -/
theorem Backed.serve (hb : h.Backed) {newInode : Bool} {r : Pass} (hleaf : h.RemovesLeaf stale buf)
    (hok : h.pass (.server newInode) stale ip buf = .ok r) : r.host.Backed ∧ Serves h r.host := by
  obtain ⟨hserve, -⟩ := pass_eq_ok_iff.mp hok
  rw [serve_eq] at hserve
  obtain ⟨b, hb', hrest⟩ := bind_eq_ok hserve
  have hs := host_begun h buf b
  generalize h.begun buf b = s at hs hrest
  subst hs
  by_cases hw : b.take 2 = tagWR
  · rw [Pass.rest_write hw] at hrest
    obtain ⟨h', hh, rfl⟩ := map_eq_ok hrest
    exact hb.write hh
  by_cases hc : b.take 2 = tagCR
  · rw [Pass.rest_create hc] at hrest
    obtain ⟨h', hh, rfl⟩ := map_eq_ok hrest
    exact hb.create hh
  by_cases hm : b.take 2 = tagRM
  · rw [Pass.rest_remove hm] at hrest
    obtain ⟨h', hh, rfl⟩ := map_eq_ok hrest
    refine hb.remove (fun c hc d hd => ?_) hh
    exact hleaf b (by rw [hb']; rfl) hm c (by rw [hc]; rfl) d hd
  · rw [Pass.rest_none (by simp [hw, hc, hm])] at hrest
    cases hrest
    exact ⟨hb, Serves.refl _⟩

end Host

/-! ## the module -/

/-- A mounted instance: the address of its root and its dentries. -/
structure Instance where
  root : Ptr
  dcache : Dcache

/-- The module: whether `init_wjfs` has run, whether the server thread is in
its loop, the mounted instances with the last one first, the two globals, and
the memory that all instances share. -/
structure Machine where
  loaded : Bool
  serving : Bool
  mounts : List Instance
  /-- `rroot_dentry`; the other two globals of `wjfs_fill_super` go with it. -/
  rroot : Option Ptr
  /-- `reg_ino_mapp_table`. -/
  table : Table
  inodes : Ptr → Inode
  nextPtr : Ptr
  lastIno : CInt

namespace Machine

/-- What can happen to the module: it is loaded, an instance is mounted, the
instance with a given root is unmounted, a request reaches the server, or
another filesystem draws numbers. -/
inductive Event where
  | load
  | mount (perm : BitVec 12)
  | umount (root : Ptr)
  | request (newInode : Bool) (stale : Stale) (ip buf : Bytes)
  | elsewhere (lastIno : CInt)

variable (m : Machine)

/-- An instance as the handlers see it that work on it. -/
def host (s : Instance) : Host where
  dcache := s.dcache
  root := s.root
  inodes := m.inodes
  nextPtr := m.nextPtr
  lastIno := m.lastIno
  table := m.table
  outbox := []
  files := []

/-- The module after a handler has worked on an instance. -/
def put (h : Host) : Machine :=
  { m with
    mounts := m.mounts.map fun s => if s.root = h.root then ⟨s.root, h.dcache⟩ else s
    table := h.table
    inodes := h.inodes
    nextPtr := h.nextPtr
    lastIno := h.lastIno }

/-- `wjfs_fill_super`: a root with an inode, the globals pointed at it and the
table cleared. -/
def fillSuper (perm : BitVec 12) : Machine :=
  { m with
    mounts := ⟨m.nextPtr, .cons (Host.rootDentry m.nextPtr (m.nextPtr + 1)) .nil .nil⟩ :: m.mounts
    rroot := some m.nextPtr
    table := m.table.clear
    inodes := fun j =>
      if j = m.nextPtr + 1 then Inode.fresh (m.lastIno + 1) ⟨.dir, perm⟩ else m.inodes j
    nextPtr := m.nextPtr + 2
    lastIno := m.lastIno + 1 }

/-- One of the handlers runs when this request comes. -/
def Handles (buf : Bytes) : Prop :=
  m.serving = true ∧ buf.take 2 ∈ [tagRD, tagWR, tagCR, tagRM]

instance (buf : Bytes) : Decidable (m.Handles buf) := by unfold Handles; infer_instance

/-- The body of the loop of `wjfs_server`.  The handlers follow
`rroot_dentry`, whatever it points to. -/
def serve (newInode : Bool) (stale : Stale) (ip buf : Bytes) : Except Fault Machine :=
  if buf.take 4 = quit then .ok { m with serving := false }
  else if m.Handles buf then
    match m.rroot with
    | none => .error .nullDeref
    | some root =>
        match m.mounts.find? fun s => s.root = root with
        | none => .error .freed
        | some s => ((m.host s).pass (.server newInode) stale ip buf).map fun r => m.put r.host
  else .ok m

/-- Let an event happen.  Before `init_wjfs` there is no filesystem to mount
and nobody listens. -/
def step : Event → Except Fault Machine
  | .load => .ok (if m.loaded then m else { m with loaded := true, serving := true })
  | .mount perm => .ok (if m.loaded then m.fillSuper perm else m)
  -- `wjfs_kill_sb` frees the dentries; the globals stay
  | .umount root => .ok { m with mounts := m.mounts.filter fun s => s.root ≠ root }
  | .request newInode stale ip buf => if m.serving then m.serve newInode stale ip buf else .ok m
  | .elsewhere lastIno => .ok { m with lastIno := lastIno }

/-- Let events happen one after the other. -/
def play (m : Machine) : List Event → Except Fault Machine
  | [] => .ok m
  | e :: es => do (← m.step e).play es

/-- A kernel that has not loaded the module yet. -/
def booted (lastIno : CInt) (inodes : Ptr → Inode) (nextPtr : Ptr) : Machine where
  loaded := false
  serving := false
  mounts := []
  rroot := none
  table := Table.initial
  inodes := inodes
  nextPtr := nextPtr
  lastIno := lastIno

/-- The states of a kernel that saw events that `ok` lets through, none of
which was fatal. -/
inductive Run (ok : Machine → Event → Prop) : Machine → Prop
  | boot (lastIno : CInt) (inodes : Ptr → Inode) (nextPtr : Ptr) :
      Run ok (booted lastIno inodes nextPtr)
  | step {m m' : Machine} {e : Event} : Run ok m → ok m e → m.step e = .ok m' → Run ok m'

/-! ## what the globals describe -/

/-- An instance with nothing below its root. -/
def Empty (s : Instance) : Prop := ∀ x ∈ s.dcache.nodes, x.1 = none

instance (s : Instance) : Decidable (Empty s) := by unfold Empty; infer_instance

/-- The globals describe what is mounted: `rroot_dentry` is the root of an
instance, and every dentry of every instance that a peer's create frame made
has an entry in use with its number.  No other dentries lie below a root. -/
def Described : Prop :=
  (∃ s ∈ m.mounts, m.rroot = some s.root) ∧
  ∀ s ∈ m.mounts, ∀ x ∈ s.dcache.nodes, x.1.isSome = true → x.2.dUnhashed = false →
    ∀ i ∈ x.2.dInode, ∃ e ∈ m.table.live, e.localIno = (m.inodes i).iIno

instance : Decidable m.Described := by unfold Described; infer_instance

/-- The order of events in which the globals stay right.  An instance is
mounted only while no other has a link, for the table is cleared.  The
instance that was mounted last is the last to be unmounted.  The peer sends
requests only while something is mounted, and none to remove what still has
children. -/
def Orderly : Event → Prop
  | .mount _ => ∀ s ∈ m.mounts, Empty s
  | .umount root => m.rroot = some root → ∀ s ∈ m.mounts, s.root = root
  | .request _ stale _ buf => m.Handles buf → m.mounts ≠ [] ∧
      ∀ s ∈ m.mounts, m.rroot = some s.root → (m.host s).RemovesLeaf stale buf
  | .load | .elsewhere _ => True

instance (e : Event) : Decidable (m.Orderly e) := by cases e <;> unfold Orderly <;> infer_instance

variable {m : Machine} {m' : Machine} {e : Event}

/-- What holds in every state of an orderly run. -/
structure Ordered (m : Machine) : Prop where
  root_lt : ∀ s ∈ m.mounts, s.root < m.nextPtr
  current : m.mounts ≠ [] → ∃ s ∈ m.mounts, m.rroot = some s.root
  backed : ∀ s ∈ m.mounts, m.rroot = some s.root → (m.host s).Backed
  others : ∀ s ∈ m.mounts, m.rroot ≠ some s.root → Empty s

namespace Ordered

theorem of_booted (lastIno : CInt) (inodes : Ptr → Inode) (nextPtr : Ptr) :
    (booted lastIno inodes nextPtr).Ordered := by
  refine ⟨?_, fun h => absurd rfl h, ?_, ?_⟩ <;> exact fun s hs => absurd hs List.not_mem_nil

theorem described (ho : m.Ordered) (hne : m.mounts ≠ []) : m.Described := by
  refine ⟨ho.current hne, fun s hs x hx hsome _ i hi => ?_⟩
  obtain ⟨p, hp⟩ := Option.isSome_iff_exists.mp hsome
  by_cases hroot : m.rroot = some s.root
  · have hd : (m.host s).Node p x.2 i := ⟨by rw [← hp]; exact hx, hi⟩
    exact (ho.backed s hs hroot).exists_entry hd
  · rw [ho.others s hs hroot x hx] at hp
    cases hp

/-- A new instance, whose root is all it has. -/
theorem fillSuper (ho : m.Ordered) (hempty : ∀ s ∈ m.mounts, Empty s) (perm : BitVec 12) :
    (m.fillSuper perm).Ordered := by
  have hold : ∀ s ∈ m.mounts, (m.fillSuper perm).rroot ≠ some s.root := fun s hs heq =>
    Nat.ne_of_gt (ho.root_lt s hs) (Option.some.inj heq)
  refine ⟨?_, fun _ => ⟨_, List.mem_cons_self, rfl⟩, ?_, ?_⟩
  · intro s hs
    rcases List.mem_cons.mp hs with rfl | hs
    · exact Nat.lt_add_of_pos_right (by decide)
    · exact Nat.lt_trans (ho.root_lt s hs) (Nat.lt_add_of_pos_right (by decide))
  · intro s hs hroot
    rcases List.mem_cons.mp hs with rfl | hs
    · have ht := Host.tidy_mounted m.lastIno perm m.nextPtr m.table
      refine ⟨ht.within ht.sound (Dcache.Within.refl _) rfl (Nat.le_refl _) ht.file_lt ?_, rfl,
        List.nil_subperm⟩
      intro x hx i hi
      obtain rfl : x = (none, Host.rootDentry m.nextPtr (m.nextPtr + 1)) := List.mem_singleton.mp hx
      cases hi
      simp only [host, Machine.fillSuper, if_true]
      exact ⟨rfl, rfl, rfl⟩
    · exact absurd hroot (hold s hs)
  · intro s hs hroot
    rcases List.mem_cons.mp hs with rfl | hs
    · exact absurd rfl hroot
    · exact hempty s hs

/-- The last mounted instance stays while there is another. -/
theorem umount (ho : m.Ordered) {root : Ptr} (hok : m.Orderly (.umount root)) :
    ({ m with mounts := m.mounts.filter fun s => s.root ≠ root } : Machine).Ordered := by
  have hold : ∀ s ∈ m.mounts.filter fun s => s.root ≠ root, s ∈ m.mounts ∧ s.root ≠ root :=
    fun s hs => by simpa using hs
  refine ⟨fun s hs => ho.root_lt s (hold s hs).1, fun hne => ?_,
    fun s hs => ho.backed s (hold s hs).1, fun s hs => ho.others s (hold s hs).1⟩
  obtain ⟨s, hs⟩ := List.exists_mem_of_ne_nil _ hne
  obtain ⟨hs, hne⟩ := hold s hs
  obtain ⟨t, ht, hroot⟩ := ho.current (List.ne_nil_of_mem hs)
  refine ⟨t, List.mem_filter.mpr ⟨ht, decide_eq_true fun heq => ?_⟩, hroot⟩
  exact hne (hok (heq ▸ hroot) s hs)

/-- A handler that worked on the last mounted instance. -/
theorem put (ho : m.Ordered) {s : Instance} {h : Host} (hs : s ∈ m.mounts)
    (hroot : m.rroot = some s.root) (hb : h.Backed) (hserves : (m.host s).Serves h) :
    (m.put h).Ordered := by
  have hhost : (m.put h).host ⟨h.root, h.dcache⟩ = h := by
    obtain ⟨dcache, root, inodes, nextPtr, lastIno, table, outbox, files⟩ := h
    obtain rfl : outbox = [] := hserves.outbox
    obtain rfl : files = [] := hserves.files
    rfl
  have hr : h.root = s.root := hserves.root
  have hold : ∀ t ∈ (m.put h).mounts, ∃ u ∈ m.mounts, t.root = u.root ∧
      t = if u.root = h.root then ⟨u.root, h.dcache⟩ else u := by
    intro t ht
    obtain ⟨u, hu, rfl⟩ := List.mem_map.mp ht
    exact ⟨u, hu, by split <;> rfl, rfl⟩
  refine ⟨?_, fun _ => ?_, ?_, ?_⟩
  · intro t ht
    obtain ⟨u, hu, heq, -⟩ := hold t ht
    rw [heq]
    exact Nat.lt_of_lt_of_le (ho.root_lt u hu) hserves.next
  · exact ⟨_, List.mem_map_of_mem hs, by rw [if_pos hr.symm]; exact hroot⟩
  · intro t ht hrt
    obtain ⟨u, hu, heq, htu⟩ := hold t ht
    have hur : u.root = h.root := by
      rw [hr, ← heq]
      exact Option.some.inj (hrt.symm.trans hroot)
    rw [if_pos hur, hur] at htu
    rw [htu, hhost]
    exact hb
  · intro t ht hrt
    obtain ⟨u, hu, heq, htu⟩ := hold t ht
    have hur : u.root ≠ h.root := fun hur => hrt (by rw [heq, hur, hr]; exact hroot)
    rw [if_neg hur] at htu
    rw [htu]
    exact ho.others u hu (heq ▸ hrt)

/-- A request that comes while something is mounted. -/
theorem serve (ho : m.Ordered) {newInode : Bool} {stale : Stale} {ip buf : Bytes}
    (hok : m.Orderly (.request newInode stale ip buf))
    (hserve : m.serve newInode stale ip buf = .ok m') : m'.Ordered := by
  unfold Machine.serve at hserve
  split at hserve
  · cases hserve
    exact ⟨ho.root_lt, ho.current, ho.backed, ho.others⟩
  split at hserve
  swap
  · cases hserve
    exact ho
  next hh =>
  obtain ⟨hne, hleaf⟩ := hok hh
  split at hserve
  · cases hserve
  next root hroot =>
  split at hserve
  · cases hserve
  next s hs =>
  obtain ⟨r, hr, rfl⟩ := map_eq_ok hserve
  have hmem := List.mem_of_find?_eq_some hs
  have hsr : m.rroot = some s.root := by
    have heq : s.root = root := by simpa using List.find?_some hs
    rw [heq]
    exact hroot
  obtain ⟨hb, hserves⟩ := (ho.backed s hmem hsr).serve (hleaf s hmem hsr) hr
  exact ho.put hmem hsr hb hserves

/-- An orderly event. -/
theorem step (ho : m.Ordered) (hok : m.Orderly e) (hstep : m.step e = .ok m') : m'.Ordered := by
  cases e with
  | load =>
      cases hstep
      split
      · exact ho
      · exact ⟨ho.root_lt, ho.current, ho.backed, ho.others⟩
  | mount perm =>
      cases hstep
      split
      · exact ho.fillSuper hok perm
      · exact ho
  | umount root =>
      cases hstep
      exact ho.umount hok
  | request newInode stale ip buf =>
      by_cases hs : m.serving = true
      · simp only [Machine.step, if_pos hs] at hstep
        exact ho.serve hok hstep
      · simp only [Machine.step, if_neg hs] at hstep
        cases hstep
        exact ho
  | elsewhere lastIno =>
      cases hstep
      refine ⟨ho.root_lt, ho.current, fun s hs hroot => ?_, ho.others⟩
      have hb := ho.backed s hs hroot
      exact ⟨hb.tidy.within hb.tidy.sound (Dcache.Within.refl _) rfl (Nat.le_refl _)
        hb.tidy.file_lt fun _ _ _ _ => ⟨rfl, rfl, rfl⟩, rfl, hb.entries⟩

theorem of_run (hr : Run Orderly m) : m.Ordered := by
  induction hr with
  | boot lastIno inodes nextPtr => exact of_booted lastIno inodes nextPtr
  | step _ hok hstep ih => exact ih.step hok hstep

end Ordered

/-- **The globals describe a mounted instance whenever a handler runs**, in
every run of loads, mounts, unmounts and requests that is orderly. -/
theorem described_of_run (hr : Run Orderly m) {newInode : Bool} {stale : Stale} {ip buf : Bytes}
    (hok : m.Orderly (.request newInode stale ip buf)) (hrun : m.Handles buf) : m.Described :=
  (Ordered.of_run hr).described (hok hrun).1

/-! ## two runs -/

/-- `ok` lets the events through one after the other. -/
def Lets (ok : Machine → Event → Prop) : Machine → List Event → Prop
  | _, [] => True
  | m, e :: es => ok m e ∧ ∀ m' ∈ (m.step e).toOption, Lets ok m' es

instance decidableLets {ok : Machine → Event → Prop} [∀ m e, Decidable (ok m e)] :
    (m : Machine) → (es : List Event) → Decidable (Lets ok m es)
  | _, [] => isTrue trivial
  | m, e :: es =>
      have : ∀ m', Decidable (Lets ok m' es) := fun m' => decidableLets m' es
      inferInstanceAs (Decidable (ok m e ∧ _))

/-- Events that are let through prolong a run. -/
theorem Run.play {ok : Machine → Event → Prop} {es : List Event} :
    ∀ {m m' : Machine}, Run ok m → Lets ok m es → m.play es = .ok m' → Run ok m' := by
  induction es with
  | nil =>
      intro m m' hr _ hp
      cases hp
      exact hr
  | cons e es ih =>
      intro m m' hr hlet hp
      obtain ⟨n, hn, hp⟩ := bind_eq_ok hp
      exact ih (hr.step hlet.1 hn) (hlet.2 n (by rw [hn]; rfl)) hp

/-- A kernel with free addresses from 0 on that has drawn no numbers. -/
def kernel : Machine := booted 0 (fun _ => Inode.fresh 0 ⟨.reg, 0⟩) 0

/-- A request over a stack full of zeros. -/
def frame (buf : Bytes) : Event := .request true zeroStack [] buf

/-- `"RM 7 x 1 / 0000"`, the request to remove the link `x`. -/
def removeX : Bytes := wjfsClientRemove 7 [120] 1 Host.rootName false

/-- Two mounts, of which the first goes again, and then a link in the
second. -/
def remount : List Event := [.load, .mount 0o755, .mount 0o755, .umount 0, frame createX]

theorem exists_play {es : List Event} {p : Machine → Bool}
    (h : (kernel.play es).toOption.any p = true) : ∃ m, kernel.play es = .ok m ∧ p m = true := by
  cases hp : kernel.play es with
  | error c => simp [hp, Except.toOption] at h
  | ok m => exact ⟨m, rfl, by simpa [hp, Except.toOption] using h⟩

/-- After these the globals describe the second instance. -/
theorem described_of_run_remount :
    ∃ m, kernel.play remount = .ok m ∧ Run Orderly m ∧ m.Orderly (frame removeX) ∧
      m.Handles removeX ∧ m.Described := by
  have hafter : (kernel.play remount).toOption.any
      (fun m => decide (m.Orderly (frame removeX) ∧ m.Handles removeX)) = true := by
    decide
  obtain ⟨m, hp, hm⟩ := exists_play hafter
  obtain ⟨hok, hrun⟩ := of_decide_eq_true hm
  have hlets : Lets Orderly kernel remount := by decide
  have hr := Run.play (.boot ..) hlets hp
  exact ⟨m, hp, hr, hok, hrun, described_of_run hr hok hrun⟩

/-- A second mount while the first instance has a link. -/
def orphan : List Event := [.load, .mount 0o755, frame createX, .mount 0o755]

/-- Two mounts, of which the second goes again. -/
def dangle : List Event := [.load, .mount 0o755, .mount 0o755, .umount 2]

/-- A sequence of events after which a request comes and the globals are
wrong. -/
def Misled (es : List Event) : Prop :=
  ∃ m, kernel.play es = .ok m ∧ Run (fun _ _ => True) m ∧ m.Handles createX ∧ ¬ m.Described

theorem lets_true (m : Machine) (es : List Event) : Lets (fun _ _ => True) m es := by
  induction es generalizing m with
  | nil => exact trivial
  | cons e es ih => exact ⟨trivial, fun m' _ => ih m'⟩

theorem misled_of_play {es : List Event} (h : (kernel.play es).toOption.any
    (fun m => decide (m.Handles createX ∧ ¬ m.Described)) = true) : Misled es := by
  obtain ⟨m, hp, hm⟩ := exists_play h
  exact ⟨m, hp, Run.play (.boot ..) (lets_true _ es) hp, of_decide_eq_true hm⟩

/-- A request comes when the link of the first instance has lost its entry, or
when `rroot_dentry` is the root of an instance that is gone. -/
theorem globals_outlive_mounts : Misled orphan ∧ Misled dangle :=
  ⟨misled_of_play (by decide +kernel), misled_of_play (by decide +kernel)⟩

end Machine

end Wjfs
