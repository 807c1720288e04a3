import Wjfs.Dcache.Laws
import Wjfs.Vfs

/-!
# Wjfs.Host.Laws

How the state updates act on what the calls read, and what the shared parts
of the system calls come to when their lookups succeed.
-/

namespace Wjfs

/-- What a computation in `Except` returned came from both of its parts. -/
theorem bind_eq_ok {ε α β : Type} {x : Except ε α} {f : α → Except ε β} {b : β}
    (h : x >>= f = .ok b) : ∃ a, x = .ok a ∧ f a = .ok b := by
  cases x with
  | error e => cases h
  | ok a => exact ⟨a, rfl, h⟩

theorem exists_of_toOption_map {ε α β : Type} {x : Except ε α} {f : α → β} {b : β}
    (h : x.toOption.map f = some b) : ∃ a, x = .ok a ∧ f a = b := by
  cases x with
  | error e => cases h
  | ok a => exact ⟨a, rfl, Option.some.inj h⟩

theorem map_eq_ok {ε α β : Type} {x : Except ε α} {f : α → β} {b : β}
    (h : x.map f = .ok b) : ∃ a, x = .ok a ∧ f a = b := by
  cases x with
  | error e => cases h
  | ok a => exact ⟨a, rfl, Except.ok.inj h⟩

theorem map_eq_error {ε α β : Type} {x : Except ε α} {f : α → β} {e : ε}
    (h : x.map f = .error e) : x = .error e := by
  cases x with
  | error e' => cases h; rfl
  | ok a => cases h

namespace Host

variable {h : Host} {j k i : Ptr} {f : Dentry → Dentry} {g : Inode → Inode} {env : Env}
  {name : Bytes} {path : List Bytes}

section Fields

variable (h : Host) (k : Ptr) (F : Dcache → Dcache) (g : Inode → Inode) (env : Env)

@[simp] theorem dcache_mapDcache : (h.mapDcache F).dcache = F h.dcache := rfl
@[simp] theorem root_mapDcache : (h.mapDcache F).root = h.root := rfl
@[simp] theorem inodes_mapDcache : (h.mapDcache F).inodes = h.inodes := rfl
@[simp] theorem table_mapDcache : (h.mapDcache F).table = h.table := rfl
@[simp] theorem dcache_dget : (h.dget k).dcache = h.dcache.dget k := rfl
@[simp] theorem root_dget : (h.dget k).root = h.root := rfl
@[simp] theorem inodes_dget : (h.dget k).inodes = h.inodes := rfl
@[simp] theorem table_dget : (h.dget k).table = h.table := rfl
@[simp] theorem nextPtr_dget : (h.dget k).nextPtr = h.nextPtr := rfl
@[simp] theorem dcache_dput : (h.dput k).dcache = h.dcache.dput k := rfl
@[simp] theorem dcache_setInode : (h.setInode k g).dcache = h.dcache := rfl

/-- A frame sent only changes the frames under way. -/
theorem send_eq (b : Bytes) : h.send env b = { h with outbox := (h.send env b).outbox } := by
  unfold send; split <;> rfl

@[simp] theorem dcache_send (b : Bytes) : (h.send env b).dcache = h.dcache := by rw [send_eq]
@[simp] theorem root_send (b : Bytes) : (h.send env b).root = h.root := by rw [send_eq]
@[simp] theorem inodes_send (b : Bytes) : (h.send env b).inodes = h.inodes := by rw [send_eq]
@[simp] theorem files_send (b : Bytes) : (h.send env b).files = h.files := by rw [send_eq]
@[simp] theorem table_send (b : Bytes) : (h.send env b).table = h.table := by rw [send_eq]
@[simp] theorem nextPtr_send (b : Bytes) : (h.send env b).nextPtr = h.nextPtr := by rw [send_eq]

theorem mapDcache_send (b : Bytes) :
    (h.send env b).mapDcache F = (h.mapDcache F).send env b := by
  unfold send; split <;> rfl

theorem dput_send (b : Bytes) : (h.send env b).dput k = (h.dput k).send env b := by
  unfold send; split <;> rfl

theorem dput_setInode (i : Ptr) : (h.setInode i g).dput k = (h.dput k).setInode i g := rfl

end Fields

/-- What counts of a rewriting of the tree is what it makes of the tree that
is there. -/
theorem mapDcache_congr {F G : Dcache → Dcache} (hFG : F h.dcache = G h.dcache) :
    h.mapDcache F = h.mapDcache G := by
  unfold mapDcache
  rw [hFG]

theorem dInode?_congr {h' : Host} (hd : h'.dcache = h.dcache) : h'.dInode? k = h.dInode? k := by
  unfold dInode? dentryOf?
  rw [hd]

@[simp] theorem dInode?_send (b : Bytes) : (h.send env b).dInode? k = h.dInode? k :=
  dInode?_congr (dcache_send ..)

@[simp] theorem dInode?_setInode (g : Inode → Inode) : (h.setInode i g).dInode? k = h.dInode? k :=
  rfl

/-- `i_ino` of the inode at an address. -/
def number (h : Host) (i : Ptr) : CInt := (h.inodes i).iIno

theorem number_setInode {g : Inode → Inode} (hg : ∀ n, (g n).iIno = n.iIno) :
    (h.setInode i g).number j = h.number j := by
  unfold number setInode
  by_cases hj : j = i
  · simp [hj, hg]
  · simp [hj]

@[simp] theorem number_send (b : Bytes) : (h.send env b).number j = h.number j := by
  rw [number, inodes_send, number]

/-! ## updates of the tree that keep what is read -/

theorem dentryOf?_update (hf : Dcache.Keeps f) :
    (h.mapDcache (·.update k f)).dentryOf? j =
      (h.dentryOf? j).map fun x => (x.1, if x.2.ptr = k then f x.2 else x.2) :=
  Dcache.node?_update hf

theorem dInode?_update (hf : Dcache.Keeps f) (hi : ∀ d, (f d).dInode = d.dInode) :
    (h.mapDcache (·.update k f)).dInode? j = h.dInode? j := by
  unfold dInode?
  rw [dentryOf?_update hf]
  cases h.dentryOf? j with
  | none => rfl
  | some x =>
      by_cases hk : x.2.ptr = k
      · simp [hk, hi]
      · simp [hk]

theorem inodeOf?_update (hf : Dcache.Keeps f) (hi : ∀ d, (f d).dInode = d.dInode) :
    (h.mapDcache (·.update k f)).inodeOf? j = h.inodeOf? j := by
  unfold inodeOf?
  rw [dInode?_update hf hi]
  rfl

theorem dParent_update (hf : Dcache.Keeps f) :
    (h.mapDcache (·.update k f)).dParent j = h.dParent j := by
  unfold dParent
  rw [dentryOf?_update hf]
  cases h.dentryOf? j <;> rfl

@[simp] theorem dInode?_dget : (h.dget k).dInode? j = h.dInode? j :=
  dInode?_update Dcache.keeps_get fun _ => rfl

@[simp] theorem inodeOf?_dget : (h.dget k).inodeOf? j = h.inodeOf? j :=
  inodeOf?_update Dcache.keeps_get fun _ => rfl

@[simp] theorem dParent_dget : (h.dget k).dParent j = h.dParent j :=
  dParent_update Dcache.keeps_get

theorem mayDelete_dget {dir victim : Ptr} {isdir : Bool} :
    (h.dget k).mayDelete env dir victim isdir = h.mayDelete env dir victim isdir := by
  unfold mayDelete
  rw [inodeOf?_dget, dParent_dget]
  rfl

theorem isMyFile_dget : (h.dget k).isMyFile j = h.isMyFile j := by
  simp only [isMyFile, inodeOf?_dget, table_dget]

theorem exists_dInode_of_isMyFile {b : Bool} (hk : h.isMyFile k = .ok b) :
    ∃ i, h.dInode? k = some i := by
  unfold isMyFile inodeOf? at hk
  cases hi : h.dInode? k with
  | none => rw [hi] at hk; cases hk
  | some i => exact ⟨i, rfl⟩

/-- Only its number makes an inode the host's own. -/
theorem isMyFile_setInode (hg : (g (h.inodes i)).iIno = (h.inodes i).iIno) :
    (h.setInode i g).isMyFile k = h.isMyFile k := by
  have hd : (h.setInode i g).dInode? k = h.dInode? k := rfl
  unfold isMyFile inodeOf?
  rw [hd]
  cases h.dInode? k with
  | none => rfl
  | some j =>
      by_cases hj : j = i
      · subst hj
        simp [setInode, hg]
      · simp [setInode, hj]

/-- A reference taken and dropped again, while another one is there. -/
theorem dput_dget {x : Option Ptr × Dentry} (hk : h.dentryOf? k = some x) (hc : x.2.dCount ≠ 0) :
    (h.dget k).dput k = h := by
  unfold dput dget mapDcache
  simp only [Dcache.dput_dget hk hc]

/-! ## lookups that succeed -/

/-- The walk ends at a directory. -/
theorem isDir_of_walk {p : Ptr} (hw : h.walk env k path = .ok p) :
    ∃ i, h.dInode? p = some i ∧ (h.inodes i).isDir = true := by
  induction path generalizing k with
  | nil =>
      unfold walk at hw
      cases hi : h.inodeOf? k with
      | none => rw [hi] at hw; cases hw
      | some n =>
          obtain ⟨i, hd, rfl⟩ := Option.map_eq_some_iff.mp hi
          rw [hi] at hw
          by_cases hdir : (h.inodes i).isDir
          · simp only [if_pos hdir] at hw
            cases hw
            exact ⟨i, hd, hdir⟩
          · simp only [if_neg hdir] at hw
            cases hw
  | cons n path ih =>
      unfold walk at hw
      cases hi : h.inodeOf? k with
      | none => rw [hi] at hw; cases hw
      | some m =>
          rw [hi] at hw
          simp only at hw
          split at hw
          · cases hw
          · split at hw
            · cases hw
            · cases hl : h.dcache.dLookup k n with
              | none => rw [hl] at hw; cases hw
              | some d => rw [hl] at hw; exact ih hw

theorem withParent_of_walk {dir : Ptr} {call : Host → Ptr → Outcome}
    (hw : h.walk env h.root path = .ok dir) :
    h.withParent env path call =
      (call (h.dget dir) dir).map fun r => (r.1.dput dir, r.2) := by
  unfold withParent
  rw [hw]
  simp only [bind, Except.bind]
  cases call (h.dget dir) dir <;> rfl

/-- A name that is in the cache is found there. -/
theorem lookupNd_hit {dir : Ptr} {i : Inode} {d : Dentry} (hi : h.inodeOf? dir = some i)
    (hp : env.inodePermission i .exec = true) (hl : h.dcache.dLookup dir name = some d) :
    h.lookupNd env dir name = .ok (h.dget d.ptr, .ok d.ptr) := by
  unfold lookupNd lookupHash
  simp only [hi, if_pos hp, hl]

theorem withDentry_of_hit {dir : Ptr} {i : Inode} {d : Dentry} {call : Host → Ptr → Outcome}
    (hi : h.inodeOf? dir = some i) (hp : env.inodePermission i .exec = true)
    (hl : h.dcache.dLookup dir name = some d) :
    h.withDentry env dir name call =
      (call (h.dget d.ptr) d.ptr).map fun r => (r.1.dput d.ptr, r.2) := by
  unfold withDentry
  rw [lookupNd_hit hi hp hl]
  simp only [bind, Except.bind]
  cases call (h.dget d.ptr) d.ptr <;> rfl

theorem withDentry_denied {dir : Ptr} {i : Inode} {call : Host → Ptr → Outcome}
    (hi : h.inodeOf? dir = some i) (hp : env.inodePermission i .exec = false) :
    h.withDentry env dir name call = .ok (h, some .eacces) := by
  unfold withDentry lookupNd
  simp [hi, hp, bind, Except.bind]

theorem withInode_of_some {dir i : Ptr} {call : Ptr → Outcome} (hi : h.dInode? dir = some i) :
    h.withInode dir call = call i := by
  unfold withInode
  rw [hi]

/-! ## a name that is in the cache -/

section Hit

variable {dir : Ptr} {d : Dentry} {e : Errno} {call : Host → Ptr → Ptr → Outcome}
  (hn : h.dcache.ptrs.Nodup) (hl : h.dcache.dLookup dir d.dName = some d)
include hn hl

theorem dentryOf?_of_dLookup : h.dentryOf? d.ptr = some (some dir, d) :=
  Dcache.node?_of_mem hn (Dcache.mem_nodes_of_dLookup hn hl)

theorem ne_of_dLookup : dir ≠ d.ptr :=
  Dcache.parent_ne_ptr hn (Dcache.mem_nodes_of_dLookup hn hl)

theorem dLookup_dget_parent : (h.dget dir).dcache.dLookup dir d.dName = some d := by
  rw [dcache_dget, Dcache.dget, Dcache.dLookup_update Dcache.keeps_get fun _ => ⟨rfl, rfl⟩, hl,
    Option.map_some, if_neg (Ne.symm (ne_of_dLookup hn hl))]

theorem dentryOf?_dget_parent : (h.dget dir).dentryOf? d.ptr = some (some dir, d) :=
  (Dcache.node?_update_ne Dcache.keeps_get (Ne.symm (ne_of_dLookup hn hl))).trans
    (dentryOf?_of_dLookup hn hl)

/-- The dentry as the call finds it, with the reference of the lookup. -/
theorem dentryOf?_dget_dget :
    ((h.dget dir).dget d.ptr).dentryOf? d.ptr = some (some dir, d.get) :=
  Dcache.node?_update_self Dcache.keeps_get (dentryOf?_dget_parent hn hl)

/-- A removal by a caller who may search the directory is the call on the
dentry, with the two references held and dropped. -/
theorem withName_of_dLookup (hw : h.walk env h.root path = .ok dir)
    (hi : h.dInode? dir = some i) (hnorm : lastNorm d.dName = true)
    (hp : env.inodePermission (h.inodes i) .exec = true) :
    h.withName env path d.dName e call =
      (call ((h.dget dir).dget d.ptr) i d.ptr).map
        fun r => ((r.1.dput d.ptr).dput dir, r.2) := by
  have hio : (h.dget dir).inodeOf? dir = some (h.inodes i) := by
    simp [inodeOf?, hi]
  unfold withName
  rw [withParent_of_walk hw, if_pos hnorm,
    withDentry_of_hit hio hp (dLookup_dget_parent hn hl),
    withInode_of_some (by simpa using hi)]
  cases call ((h.dget dir).dget d.ptr) i d.ptr <;> rfl

/-- Dropping the two references of the lookup leaves the host as it was. -/
theorem dput_dput_of_dLookup (hc : ∀ x ∈ h.dcache.nodes, 1 ≤ x.2.dCount)
    (hd : h.dentryOf? dir ≠ none) :
    ((((h.dget dir).dget d.ptr).dput d.ptr).dput dir) = h := by
  obtain ⟨x, hx⟩ := Option.ne_none_iff_exists'.mp hd
  have hcd := hc _ (Dcache.mem_nodes_of_node? (dentryOf?_of_dLookup hn hl))
  have hcx := hc _ (Dcache.mem_nodes_of_node? hx)
  rw [dput_dget (dentryOf?_dget_parent hn hl) (by simp only at hcd ⊢; omega),
    dput_dget hx (by omega)]

end Hit

end Host

end Wjfs
