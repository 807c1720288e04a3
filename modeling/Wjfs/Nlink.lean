import Mathlib.Data.BitVec
import Mathlib.Tactic.LinearCombination
import Wjfs.Run

/-!
# Wjfs.Nlink

The link counts of directories.

`i_nlink` of a directory should be 2 plus the number of its subdirectories.
Every local call keeps it so, and so do the frames of the peer but for two
kinds: a frame that announces a directory makes one without a link from its
parent, and a frame that announces a removal with the wrong flag drops links
that are not there.
-/

namespace Wjfs

namespace Host

variable {pin pin' : Ptr → Nat} {h h' : Host} {inodes inodes' : Ptr → Inode} {dir di i k : Ptr}
  {d : Dentry} {l l' : List (Option Ptr × Dentry)} {x : Option Ptr × Dentry}

/-! ## counting subdirectories -/

/-- Is it the dentry of a directory? -/
def isDirDentry (inodes : Ptr → Inode) (d : Dentry) : Bool :=
  d.dInode.any fun i => (inodes i).isDir

/-- How many of the nodes are directories with parent `k`. -/
def countDirs (inodes : Ptr → Inode) (l : List (Option Ptr × Dentry)) (k : Ptr) : Nat :=
  l.countP fun x => x.1 = some k && isDirDentry inodes x.2

/-- The number of subdirectories of a dentry. -/
def subdirCount (h : Host) (k : Ptr) : Nat := countDirs h.inodes h.dcache.nodes k

/-- The link count of every directory is 2 plus the number of its
subdirectories. -/
def LinksExact (h : Host) : Prop :=
  ∀ x ∈ h.dcache.nodes, ∀ i, x.2.dInode = some i → (h.inodes i).isDir = true →
    (h.inodes i).iNlink = BitVec.ofNat 32 (2 + h.subdirCount x.2.ptr)

theorem isDirDentry_of_some (hi : d.dInode = some i) :
    isDirDentry inodes d = (inodes i).isDir := by
  rw [isDirDentry, hi]
  rfl

theorem countDirs_cons : countDirs inodes (x :: l) k =
    countDirs inodes l k + if x.1 = some k ∧ isDirDentry inodes x.2 = true then 1 else 0 := by
  simp [countDirs, List.countP_cons]

theorem countDirs_perm (hp : l.Perm l') : countDirs inodes l k = countDirs inodes l' k :=
  hp.countP_eq _

/-- Only what kind the inodes are counts. -/
theorem countDirs_congr (hkind : ∀ x ∈ l, ∀ i, x.2.dInode = some i →
    (inodes' i).isDir = (inodes i).isDir) : countDirs inodes' l k = countDirs inodes l k := by
  refine List.countP_congr fun x hx => ?_
  have hdir : isDirDentry inodes' x.2 = isDirDentry inodes x.2 := by
    cases hi : x.2.dInode with
    | none => simp [isDirDentry, hi]
    | some i => rw [isDirDentry_of_some hi, isDirDentry_of_some hi, hkind x hx i hi]
  simp [hdir]

theorem subdirCount_eq_bare : h.subdirCount k = countDirs h.inodes h.dcache.bare k := by
  rw [subdirCount, countDirs, countDirs, Dcache.bare, List.countP_map]
  rfl

/-- Where nothing hangs below `k` there are no subdirectories. -/
theorem subdirCount_eq_zero (h0 : h.dcache.kids k = 0) : h.subdirCount k = 0 := by
  refine Nat.le_zero.mp (h0 ▸ List.countP_mono_left fun x _ hx => ?_)
  simp only [Bool.and_eq_true] at hx
  exact hx.1

/-! ## what keeps the counts exact -/

/-- Exactness follows from the balance of every directory: it is new with link
count 2 and empty, or its count went up and down as the number of its
subdirectories did. -/
theorem LinksExact.of_balance (hb : h.LinksExact)
    (hbal : ∀ y ∈ h'.dcache.nodes, ∀ i, y.2.dInode = some i → (h'.inodes i).isDir = true →
      (h'.inodes i).iNlink = 2 ∧ h'.subdirCount y.2.ptr = 0 ∨
      ∃ x ∈ h.dcache.nodes, x.2.ptr = y.2.ptr ∧ x.2.dInode = some i ∧
        (h.inodes i).isDir = true ∧ ∃ a b : Nat,
          (h'.inodes i).iNlink + BitVec.ofNat 32 a = (h.inodes i).iNlink + BitVec.ofNat 32 b ∧
          h'.subdirCount y.2.ptr + a = h.subdirCount y.2.ptr + b) : h'.LinksExact := by
  intro y hy i hi hdir
  rcases hbal y hy i hi hdir with ⟨hn, h0⟩ | ⟨x, hx, hptr, hxi, hxdir, a, b, hn, hcount⟩
  · rw [hn, h0]
    rfl
  · have hold := hb x hx i hxi hxdir
    rw [hptr] at hold
    have hcast := congrArg (fun n : Nat => (n : BitVec 32)) hcount
    simp only [Nat.cast_add] at hcast
    simp only [← BitVec.natCast_eq_ofNat, Nat.cast_add] at hn hold ⊢
    linear_combination hn + hold - hcast

theorem LinksExact.congr (hb : h.LinksExact) (hd : h'.dcache = h.dcache)
    (hi : h'.inodes = h.inodes) : h'.LinksExact := by
  unfold LinksExact subdirCount
  rw [hd, hi]
  exact hb

/-- A directory's inode belongs to its dentry alone. -/
theorem Tidy.ptr_eq_iff (ht : h.Tidy pin) (hdir : h.dInode? dir = some di)
    (hisdir : (h.inodes di).isDir = true) (hx : x ∈ h.dcache.nodes) (hi : x.2.dInode = some i) :
    x.2.ptr = dir ↔ i = di := by
  obtain ⟨z, hz, hzi⟩ := Ready.exists_dentry hdir
  have hzm := Dcache.mem_nodes_of_node? hz
  constructor
  · rintro rfl
    rw [dInode?_of_mem ht.sound.nodup hx, hi] at hdir
    exact Option.some.inj hdir
  · rintro rfl
    rw [ht.dir_unique x hx z hzm i hi hzi hisdir]
    exact (Dcache.node?_eq_some_iff ht.sound.nodup).mp hz |>.2

/-- A new leaf: a new directory starts with link count 2, and its parent has
one link more. -/
theorem LinksExact.plant (ht : h.Tidy pin) (hb : h.LinksExact)
    (hdcache : h'.dcache = h.dcache.plant dir d) (hdir : h.dInode? dir = some di)
    (hisdir : (h.inodes di).isDir = true) (hnew : d.ptr ∉ h.dcache.ptrs) (hi : d.dInode = some i)
    (hfresh : (h'.inodes i).isDir = true → (h'.inodes i).iNlink = 2)
    (hkind : ∀ x ∈ h.dcache.nodes, ∀ j, x.2.dInode = some j →
      (h'.inodes j).isDir = (h.inodes j).isDir ∧ ((h.inodes j).isDir = true →
        (h'.inodes j).iNlink = (h.inodes j).iNlink +
          if j = di ∧ (h'.inodes i).isDir = true then 1 else 0)) : h'.LinksExact := by
  have hn := ht.sound.nodup
  have hp : dir ∈ h.dcache.ptrs := Dcache.mem_ptrs_of_node? (Ready.exists_dentry hdir).choose_spec.1
  have hcount : ∀ k, h'.subdirCount k =
      h.subdirCount k + if dir = k ∧ (h'.inodes i).isDir = true then 1 else 0 := by
    intro k
    have hbit : isDirDentry h'.inodes (Dcache.strip (some dir, d)).2 = (h'.inodes i).isDir :=
      isDirDentry_of_some hi
    rw [subdirCount_eq_bare, hdcache, countDirs_perm (Dcache.bare_plant hn hp), countDirs_cons,
      hbit, subdirCount_eq_bare]
    congr 1
    · refine countDirs_congr fun x hx j hj => ?_
      obtain ⟨y, hy, rfl⟩ := Dcache.exists_of_mem_bare hx
      exact (hkind y hy j hj).1
    · simp [Dcache.strip]
  refine hb.of_balance fun y hy j hj hjdir => ?_
  rw [hdcache] at hy
  rcases (Dcache.mem_nodes_plant hn hp).mp hy with rfl | hy
  · obtain rfl : i = j := Option.some.inj (hi.symm.trans hj)
    refine .inl ⟨hfresh hjdir, subdirCount_eq_zero ?_⟩
    rw [hdcache]
    exact Dcache.kids_plant_self hn hp hnew
  · obtain ⟨c, hc⟩ := Dcache.within_update (f := Dentry.get) (fun _ => ⟨_, rfl⟩) y hy
    obtain ⟨hsame, hlink⟩ := hkind _ hc j hj
    rw [hsame] at hjdir
    refine .inr ⟨_, hc, rfl, hj, hjdir, 0, if j = di ∧ (h'.inodes i).isDir = true then 1 else 0,
      ?_, ?_⟩
    · rw [hlink hjdir]
      split <;> simp
    · have hiff : dir = y.2.ptr ↔ j = di := eq_comm.trans
        (ht.ptr_eq_iff (x := (y.1, y.2.withCount c)) hdir hisdir hc hj)
      rw [hcount y.2.ptr]
      simp only [hiff, Nat.add_zero]

/-- A leaf less: the parent of a directory has one link less. -/
theorem LinksExact.prune (ht : h.Tidy pin) (hb : h.LinksExact)
    (hd : (some dir, d) ∈ h.dcache.nodes) (hdir : h.dInode? dir = some di)
    (hi : d.dInode = some i)
    (hbare : h.dcache.bare.Perm (Dcache.strip (some dir, d) :: h'.dcache.bare))
    (hkind : ∀ x ∈ h.dcache.nodes, x.2.ptr ≠ d.ptr → ∀ j, x.2.dInode = some j →
      (h'.inodes j).isDir = (h.inodes j).isDir ∧ ((h.inodes j).isDir = true →
        (h'.inodes j).iNlink + (if j = di ∧ (h.inodes i).isDir = true then 1 else 0) =
          (h.inodes j).iNlink)) : h'.LinksExact := by
  have hn := ht.sound.nodup
  obtain ⟨di', hdi', hisdir⟩ := ht.dirs dir d hd
  obtain rfl : di' = di := Option.some.inj (hdi'.symm.trans hdir)
  -- the nodes that are left are old ones, and not `d`
  have hold : ∀ y ∈ h'.dcache.bare, ∃ x ∈ h.dcache.nodes, Dcache.strip x = y ∧ x.2.ptr ≠ d.ptr := by
    intro y hy
    obtain ⟨x, hx, rfl⟩ := Dcache.exists_of_mem_bare
      (hbare.mem_iff.mpr (List.mem_cons_of_mem _ hy))
    refine ⟨x, hx, rfl, fun hptr => ?_⟩
    rw [← Dcache.map_ptr_bare, (hbare.map _).nodup_iff, List.map_cons, List.nodup_cons] at hn
    exact hn.1 (List.mem_map.mpr ⟨_, hy, hptr⟩)
  have hcount : ∀ k, h.subdirCount k =
      h'.subdirCount k + if dir = k ∧ (h.inodes i).isDir = true then 1 else 0 := by
    intro k
    have hbit : isDirDentry h.inodes (Dcache.strip (some dir, d)).2 = (h.inodes i).isDir :=
      isDirDentry_of_some hi
    rw [subdirCount_eq_bare, countDirs_perm hbare, countDirs_cons, hbit, subdirCount_eq_bare]
    congr 1
    · refine countDirs_congr fun y hy j hj => ?_
      obtain ⟨x, hx, rfl, hne⟩ := hold y hy
      exact (hkind x hx hne j hj).1.symm
    · simp [Dcache.strip]
  refine hb.of_balance fun y hy j hj hjdir => .inr ?_
  obtain ⟨x, hx, hxy, hne⟩ := hold _ (Dcache.mem_bare_of_mem hy)
  have hptr : x.2.ptr = y.2.ptr := congrArg (fun z => z.2.ptr) hxy
  have hxj : x.2.dInode = some j := (congrArg (fun z => z.2.dInode) hxy).trans hj
  obtain ⟨hsame, hlink⟩ := hkind x hx hne j hxj
  rw [hsame] at hjdir
  refine ⟨x, hx, hptr, hxj, hjdir, if j = di' ∧ (h.inodes i).isDir = true then 1 else 0, 0, ?_, ?_⟩
  · rw [← hlink hjdir]
    split <;> simp
  · have hiff : dir = y.2.ptr ↔ j = di' := by
      rw [← hptr]
      exact eq_comm.trans (ht.ptr_eq_iff hdir hisdir hx hxj)
    rw [hcount y.2.ptr]
    simp only [hiff, Nat.add_zero]

/-- A file that goes takes no link of its directory with it. -/
theorem LinksExact.prune_file (ht : h.Tidy pin) (hb : h.LinksExact)
    (hd : (some dir, d) ∈ h.dcache.nodes) (hdir : h.dInode? dir = some di)
    (hi : d.dInode = some i) (hfile : (h.inodes i).isDir = false)
    (hbare : h.dcache.bare.Perm (Dcache.strip (some dir, d) :: h'.dcache.bare))
    (hino : ∀ j, h'.inodes j = if j = i then (h.inodes j).dropNlink else h.inodes j) :
    h'.LinksExact := by
  refine hb.prune ht hd hdir hi hbare fun x hx hne j hj => ?_
  rw [hino j]
  by_cases hji : j = i
  · rw [if_pos hji, hji, hfile]
    exact ⟨hfile, fun h => (by cases h)⟩
  · rw [if_neg hji, hfile]
    simp

/-- A directory that goes takes one. -/
theorem LinksExact.prune_dir (ht : h.Tidy pin) (hb : h.LinksExact)
    (hd : (some dir, d) ∈ h.dcache.nodes) (hdir : h.dInode? dir = some di)
    (hi : d.dInode = some i) (hisdir : (h.inodes i).isDir = true)
    (hbare : h.dcache.bare.Perm (Dcache.strip (some dir, d) :: h'.dcache.bare))
    (hino : ∀ j, j ≠ i → h'.inodes j = if j = di then (h.inodes j).dropNlink else h.inodes j) :
    h'.LinksExact := by
  refine hb.prune ht hd hdir hi hbare fun x hx hne j hj => ?_
  -- its inode belongs to no other dentry
  have hji : j ≠ i := fun heq =>
    hne (congrArg (fun z => z.2.ptr) (ht.dir_unique _ hx _ hd _ (heq ▸ hj) hi hisdir))
  rw [hino j hji, hisdir]
  by_cases hjd : j = di
  · simp only [if_pos hjd]
    exact ⟨rfl, fun _ => by simp [Inode.dropNlink, hjd]⟩
  · simp [hjd]

section Rename

variable {p oi q ni : Ptr} {d' : Dentry} {gone : Option Dentry}
  {rest : List (Option Ptr × Dentry)} (ht : h.Tidy pin)
  (hr : Renamed pin h h' p oi q ni i d d' gone rest)
include ht hr

/-- How a rename changes the number of subdirectories: the old directory loses
one and the new one gains one, unless one was replaced there. -/
theorem Renamed.subdirCount (k : Ptr) :
    h'.subdirCount k + (if p = k ∧ (h.inodes i).isDir = true then 1 else 0) +
        (if gone.isSome = true ∧ q = k ∧ (h.inodes i).isDir = true then 1 else 0) =
      h.subdirCount k + if q = k ∧ (h.inodes i).isDir = true then 1 else 0 := by
  have hkind : ∀ x ∈ h'.dcache.bare, ∀ j, x.2.dInode = some j →
      (h'.inodes j).isDir = (h.inodes j).isDir := by
    intro x hx j hj
    obtain ⟨y, hy, rfl⟩ := Dcache.exists_of_mem_bare hx
    exact (hr.sameKind ht hy hj).isDir
  have hrest : countDirs h'.inodes rest k = countDirs h.inodes rest k :=
    countDirs_congr fun x hx => hkind x (hr.after.mem_iff.mpr (List.mem_cons_of_mem _ hx))
  have hafter : h'.subdirCount k =
      countDirs h.inodes rest k + if q = k ∧ (h.inodes i).isDir = true then 1 else 0 := by
    have hi : (Dcache.strip (some q, d')).2.dInode = some i := hr.same.2.1.trans hr.inode
    rw [subdirCount_eq_bare, countDirs_perm hr.after, countDirs_cons, hrest,
      isDirDentry_of_some hi, hkind _ (hr.after.mem_iff.mpr List.mem_cons_self) i hi]
    simp [Dcache.strip]
  have hbefore : h.subdirCount k = countDirs h.inodes rest k +
      (if gone.isSome = true ∧ q = k ∧ (h.inodes i).isDir = true then 1 else 0) +
      if p = k ∧ (h.inodes i).isDir = true then 1 else 0 := by
    have hi : (Dcache.strip (some p, d)).2.dInode = some i := hr.inode
    rw [subdirCount_eq_bare, countDirs_perm hr.before, countDirs_cons, isDirDentry_of_some hi]
    congr 1
    · cases hg : gone with
      | none => simp
      | some e =>
          obtain ⟨-, -, -, te, hte, -, hsame⟩ := hr.target e hg
          have hte' : (Dcache.strip (some q, e)).2.dInode = some te := hte
          rw [Option.map_some, Option.toList_some, List.singleton_append, countDirs_cons,
            isDirDentry_of_some hte', hsame]
          simp [Dcache.strip]
    · simp [Dcache.strip]
  rw [hafter, hbefore]
  omega

/-- A rename keeps the link counts exact. -/
theorem LinksExact.rename (hb : h.LinksExact) : h'.LinksExact := by
  obtain ⟨oi', hoi', holdDir⟩ := ht.dirs p d hr.old
  obtain rfl : oi' = oi := Option.some.inj (hoi'.symm.trans hr.oldDir)
  refine hb.of_balance fun y hy j hj hjdir => .inr ?_
  obtain ⟨x, hx, hptr, hino⟩ := hr.exists_origin ht.sound.nodup hy
  have hxj : x.2.dInode = some j := hino.trans hj
  have hsame := hr.sameKind ht hy hj
  rw [hsame.isDir] at hjdir
  have hp : p = y.2.ptr ↔ j = oi' := by
    rw [← hptr]
    exact eq_comm.trans (ht.ptr_eq_iff hr.oldDir holdDir hx hxj)
  have hq : q = y.2.ptr ↔ j = ni := by
    rw [← hptr]
    exact eq_comm.trans (ht.ptr_eq_iff hr.newDir hr.isDir hx hxj)
  have hcount := hr.subdirCount ht y.2.ptr
  simp only [hp, hq] at hcount
  refine ⟨x, hx, hptr, hxj, hjdir, ?_⟩
  rw [hr.inodes_eq]
  cases hD : (h.inodes i).isDir with
  | false =>
      -- a file that is replaced is no directory
      refine ⟨0, 0, ?_, by simpa [hD] using hcount⟩
      cases hg : gone with
      | none => rfl
      | some e =>
          obtain ⟨-, -, -, te, hte, -, hkind⟩ := hr.target e hg
          have hne : j ≠ te := fun heq => by
            rw [heq, hkind, hD] at hjdir
            cases hjdir
          simp [movedInodes, hte, setInode, hne]
  | true =>
      cases hg : gone with
      | none =>
          refine ⟨if j = oi' then 1 else 0, if j = ni then 1 else 0, ?_, by
            simpa [hD, hg] using hcount⟩
          simp only [movedInodes, Option.bind_none, setInode]
          split <;> split <;> simp_all [Inode.dropNlink, Inode.incNlink]
      | some e =>
          obtain ⟨hem, -, -, te, hte, -, hkind⟩ := hr.target e hg
          have hne : j ≠ te := fun heq => by
            have := ht.dir_unique _ hem x hx te hte (heq ▸ hxj) (by rw [hkind, hD])
            exact (hr.origin ht.sound.nodup hy).1 e hg (by rw [← hptr, ← this])
          refine ⟨if j = oi' then 1 else 0, 0, ?_, ?_⟩
          · simp only [movedInodes, Option.bind_some, hte, setInode, if_neg hne]
            split <;> simp_all [Inode.dropNlink]
          · simp [hD, hg] at hcount ⊢
            omega

end Rename

/-! ## along runs -/

/-- The frame announces no directory. -/
def FileFrame : Event → Prop
  | .create _ buf _ => ∀ c, parseControl buf = .ok c → c.mode = 0
  | _ => True

section Run

variable {e : Event}

/-- An effect keeps the link counts exact, unless it makes a link that is a
directory. -/
theorem LinksExact.effect (hb : h.LinksExact) (ht : h.Tidy pin)
    (hpin : ∀ k ∈ h.dcache.ptrs, 1 ≤ pin k) (hframe : FileFrame e) (he : Effect pin h e h') :
    h'.LinksExact := by
  have hnew := ht.ready.nextPtr_not_mem
  have hlt : ∀ {x j}, x ∈ h.dcache.nodes → x.2.dInode = some j → j ≠ h.nextPtr + 1 :=
    fun hx hj heq => Nat.lt_irrefl _ (Nat.lt_of_succ_lt (heq ▸ ht.ready.inode_lt _ hx _ hj))
  have hbare : ∀ {dir d}, (some dir, d) ∈ h.dcache.nodes → h.dcache.kids d.ptr = 0 →
      h.dcache.bare.Perm (Dcache.strip (some dir, d) :: (h.pruned dir d.ptr).dcache.bare) :=
    fun hd h0 => ht.bare_pruned hd h0 (hpin _ (Dcache.parent_mem_ptrs hd))
  cases he with
  | noTrace hno =>
      obtain ⟨n, -, rfl⟩ := hno
      exact hb.congr rfl rfl
  | released hc => exact hb.congr rfl rfl
  | elsewhere n => exact hb.congr rfl rfl
  | renamed hr => exact LinksExact.rename ht hr hb
  | @created env op path name dir di mode hop hq hz =>
      obtain ⟨z, hz, hzi⟩ := Ready.exists_dentry hq.inode
      have hdi := hlt (Dcache.mem_nodes_of_node? hz) hzi
      refine hb.plant ht (d := (liveDentry h.nextPtr name (h.nextPtr + 1)).withCount 1)
        (dcache_created ..) hq.inode hq.isDir hnew rfl ?_ fun x hx j hj => ?_
      · rw [inodes_created_new hdi, isDir_newInode, iNlink_newInode]
        exact fun hD => if_pos hD
      · rw [inodes_created_old (hlt hx hj), inodes_created_new hdi, isDir_newInode]
        by_cases hinc : j = di ∧ mode.isDir = true
        · simp only [if_pos hinc]
          exact ⟨rfl, fun _ => rfl⟩
        · simp only [if_neg hinc]
          exact ⟨trivial, fun _ => (BitVec.add_zero _).symm⟩
  | @hardLinked env _ _ _ name dir di k i hdir hisdir hi hfile =>
      have hkind : ∀ j, ((h.hardLinked dir name i).inodes j).isDir = (h.inodes j).isDir :=
        fun j => (sameKind_setInode j fun _ => ⟨rfl, rfl, rfl⟩).isDir
      refine hb.plant ht rfl hdir hisdir hnew rfl ?_ fun x hx j hj => ⟨hkind j, fun hjdir => ?_⟩
      · intro hD
        rw [hkind, hfile] at hD
        cases hD
      · have hne : j ≠ i := fun heq => by
          rw [heq, hfile] at hjdir
          cases hjdir
        rw [hkind i, hfile]
        simp [Host.hardLinked, setInode, hne]
  | @unlinked env _ _ dir di i d hd hdir hi hfile hmine =>
      have h0 := ht.kids_eq_zero ((dInode?_of_mem ht.sound.nodup hd).trans hi) hfile
      refine hb.prune_file ht hd hdir hi hfile ?_ fun j => ?_
      · rw [Host.unlinked, dcache_send]
        exact hbare hd h0
      · rw [Host.unlinked, inodes_send]
        simp only [setInode]
        split <;> simp_all [Host.pruned]
  | @rmdired env _ _ dir di i d hd hdir hi hisdir h0 hmine =>
      refine hb.prune_dir ht hd hdir hi hisdir ?_ fun j hji => ?_
      · rw [Host.rmdired, dcache_setInode, dcache_send]
        exact hbare hd h0
      · simp only [Host.rmdired, setInode, inodes_send, if_neg hji]
        split <;> simp_all [Host.pruned]
  | @linked newInode buf ip c dir di table hc hl hins =>
      have hmode : (linkMode c.mode).isDir = false := by
        rw [hframe c hc]
        rfl
      refine hb.plant ht (d := (liveDentry h.nextPtr c.name (h.nextPtr + 1)).withCount 1) rfl
        hl.inode hl.isDir hnew rfl ?_ fun x hx j hj => ?_
      · simp [Host.linked, Host.made, madeIn, hmode]
      · simp [Host.linked, Host.made, madeIn, hmode, hlt hx hj]
  | @forgotten buf c p dir i d hc hr h0 =>
      unfold Host.forgotten
      split
      next hisdir =>
        exact LinksExact.prune_dir ht hb hr.mem hr.parent hr.inode hisdir (hbare hr.mem h0)
          fun j hji => by
            simp only [setInode, if_neg hji]
            split <;> simp_all [Host.pruned, Host.released]
      next hfile =>
        exact LinksExact.prune_file ht hb hr.mem hr.parent hr.inode (by simpa using hfile)
          (hbare hr.mem h0) fun j => by
            simp only [setInode]
            split <;> simp_all [Host.pruned, Host.released]

/-- The host after `mount`: one directory, with link count 2. -/
theorem linksExact_mounted (lastIno : CInt) (perm : BitVec 12) (nextPtr : Ptr) (table : Table) :
    (mounted lastIno perm nextPtr table).LinksExact := by
  intro x hx i _ _
  have hx' : x = (none, rootDentry nextPtr (nextPtr + 1)) := by
    simpa [mounted, Dcache.nodes, Forest.flat] using hx
  have hcount : (mounted lastIno perm nextPtr table).subdirCount x.2.ptr = 0 := by
    rw [hx']
    rfl
  rw [hcount]
  rfl

/-- **Link counts along a run.**  With owned removals only, flags that fit and
no frame that announces a directory, the link count of every directory is 2
plus the number of its subdirectories in every state; as long as these number
less than `2^32 - 2`, it is at least 2. -/
theorem linksExact_of_run
    (hr : Run (fun h e => h.OwnedRemoval e ∧ h.FlagFits e ∧ FileFrame e) h) :
    h.LinksExact ∧ ∀ x ∈ h.dcache.nodes, ∀ i, x.2.dInode = some i → (h.inodes i).isDir = true →
      2 + h.subdirCount x.2.ptr < 2 ^ 32 →
      (h.inodes i).iNlink.toNat = 2 + h.subdirCount x.2.ptr := by
  have hexact : h.LinksExact := by
    induction hr with
    | mount lastIno perm nextPtr table => exact linksExact_mounted lastIno perm nextPtr table
    | step hr hok hstep ih =>
        obtain ⟨ht, hfiles⟩ := hr.tidy fun _ _ ho => ⟨ho.1, ho.2.1⟩
        have he := effect_of_step ht (fun k _ => one_le_onePin k) hfiles hok.1 hok.2.1 hstep
        exact ih.effect ht (fun k _ => one_le_onePin k) hok.2.2 he
  refine ⟨hexact, fun x hx i hi hdir hlt => ?_⟩
  rw [hexact x hx i hi hdir, BitVec.toNat_ofNat, Nat.mod_eq_of_lt hlt]

end Run

end Host

/-- The host made a directory `d` and a file `f` in it. -/
def dirAndFile : List Event :=
  [.call (Env.server true) (.mkdir [] [100] 0o755),
    .call (Env.server true) (.create [[100]] [102] 0o644)]

/-- After a local `mkdir` the root has link count 3. -/
theorem linksExact_of_run_dirAndFile :
    ∃ h, (Host.mounted 0 0o755 0 Table.initial).play dirAndFile = .ok h ∧
      h.subdirCount h.root = 1 ∧ h.LinksExact := by
  have hplay : ((Host.mounted 0 0o755 0 Table.initial).play dirAndFile).toOption.map
      (fun h => h.subdirCount h.root) = some 1 := by decide
  obtain ⟨h, hp, hcount⟩ := exists_of_toOption_map hplay
  have hrun : Host.Run (fun h e => h.OwnedRemoval e ∧ h.FlagFits e ∧ Host.FileFrame e) h :=
    (Host.Run.mount 0 0o755 0 Table.initial).play (fun h e he => by
      simp only [dirAndFile, List.mem_cons, List.not_mem_nil, or_false] at he
      rcases he with rfl | rfl <;> exact ⟨trivial, trivial, trivial⟩) hp
  exact ⟨h, hp, hcount, (Host.linksExact_of_run hrun).1⟩

/-- `"CR 7 d 1 / 1111"`, the frame that announces a directory `d` in the root. -/
def createDirD : Event := .create true (wjfsClientCreate 7 [100] 1 Host.rootName true) []

/-- `"RM 7 d 1 / 1111"`, the frame that announces its removal. -/
def removeDirD : Event := .remove (wjfsClientRemove 7 [100] 1 Host.rootName true)

/-- The peer's directory is not counted in the root's links, and its removal
takes the root's count below 2. -/
theorem dirFrame_miscounts :
    (∃ h, (Host.mounted 0 0o755 0 Table.initial).play [createDirD] = .ok h ∧
      (h.inodes 1).iNlink = 2 ∧ h.subdirCount h.root = 1 ∧ ¬ h.LinksExact) ∧
    ∃ h, (Host.mounted 0 0o755 0 Table.initial).play [createDirD, removeDirD] = .ok h ∧
      (h.inodes 1).iNlink = 1 ∧ h.subdirCount h.root = 0 := by
  have hcreate : ((Host.mounted 0 0o755 0 Table.initial).play [createDirD]).toOption.map
      (fun h => ((h.inodes 1).iNlink, h.subdirCount h.root, h.root, (h.inodes 1).isDir)) =
      some (2, 1, 0, true) := by decide
  have hhead : ((Host.mounted 0 0o755 0 Table.initial).play [createDirD]).toOption.map
      (fun h => h.dcache.nodes.head?) = some (some (none, (Host.rootDentry 0 1).get)) := by
    decide
  have hremove : ((Host.mounted 0 0o755 0 Table.initial).play [createDirD, removeDirD]).toOption.map
      (fun h => ((h.inodes 1).iNlink, h.subdirCount h.root)) = some (1, 0) := by decide
  obtain ⟨h, hp, hh⟩ := exists_of_toOption_map hcreate
  obtain ⟨g, hg, hgg⟩ := exists_of_toOption_map hremove
  simp only [Prod.mk.injEq] at hh hgg
  obtain ⟨hlink, hcount, hroot, hdir⟩ := hh
  refine ⟨⟨h, hp, hlink, hcount, fun hexact => ?_⟩, g, hg, hgg⟩
  rw [hp] at hhead
  have hlink' := hexact _ (List.mem_of_mem_head? (Option.some.inj hhead)) 1 rfl hdir
  rw [hlink, show (Host.rootDentry 0 1).get.ptr = h.root from hroot.symm, hcount] at hlink'
  exact absurd hlink' (by decide)

end Wjfs
