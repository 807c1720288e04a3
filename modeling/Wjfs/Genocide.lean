import Wjfs.Umount

/-!
# Wjfs.Genocide

`wjfs_d_genocide` on the pointers it follows.

`Wjfs.Umount` runs the loop on the tree itself, with a stack for the way back.
The C has no stack: it goes down by `d_subdirs.next`, on by `d_child.next` and
up by `d_parent`.  Here the dentries lie in a `Heap` with those three pointers,
and `Walk.step` is one round of the loop between its two labels.

`Heap.Holds` says that the pointers are those of a tree.  Then the loop ends,
and the addresses it has passed to `atomic_dec` are, in this order, `victims`
of the tree; each of them occurs once.
-/

namespace Wjfs

/-! ## the loop -/

/-- The address of a `struct list_head` inside a dentry: that of
`d_u.d_child` or that of `d_subdirs`. -/
inductive Link where
  | child (dentry : Ptr)
  | subdirs (dentry : Ptr)
deriving DecidableEq, Repr

/-- The dentries in memory: the record at an address, where each
`list_head.next` points, and `d_parent`. -/
structure Heap where
  dentry : Ptr → Dentry
  next : Link → Link
  dParent : Ptr → Ptr

namespace Heap

/-- `atomic_dec(&dentry->d_count)`. -/
def atomicDec (m : Heap) (k : Ptr) : Heap :=
  { m with dentry := fun j => if j = k then (m.dentry k).dec else m.dentry j }

/-- `list_empty(&dentry->d_subdirs)`. -/
def listEmpty (m : Heap) (k : Ptr) : Bool := m.next (.subdirs k) = .subdirs k

end Heap

/-- Where `wjfs_d_genocide` stands: at its label `repeat`, or at the test of
the `while` loop, which is the label `resume`.  `wild` is a `next` that is no
`d_child`, so that `list_entry` makes a stray pointer of it. -/
inductive Walk where
  | again (m : Heap) (thisParent : Ptr)
  | resume (m : Heap) (thisParent : Ptr) (next : Link)
  | done (m : Heap)
  | wild

namespace Walk

/-- One round. -/
def step (root : Ptr) : Walk → Walk
  | .again m thisParent => .resume m thisParent (m.next (.subdirs thisParent))
  | .resume m thisParent next =>
      if next ≠ .subdirs thisParent then
        match next with
        | .child dentry =>
            if (m.dentry dentry).dUnhashed || (m.dentry dentry).dInode.isNone then
              .resume m thisParent (m.next (.child dentry))
            else if !m.listEmpty dentry then .again m dentry
            else .resume (m.atomicDec dentry) thisParent (m.next (.child dentry))
        | .subdirs _ => .wild
      else if thisParent ≠ root then
        .resume (m.atomicDec thisParent) (m.dParent thisParent) (m.next (.child thisParent))
      else .done m
  | .done m => .done m
  | .wild => .wild

end Walk

/-- `wjfs_d_genocide(root)`, at its start. -/
def Heap.wjfsDGenocide (m : Heap) (root : Ptr) : Walk := .again m root

/-! ## trees in memory -/

namespace Heap

variable {m m' : Heap} {parent k : Ptr} {l : Link} {t : Dcache}

/-- From `l` on, the children of `parent` are the sibling list `t`: each lies
at its address, points to its parent and to the next one, and has its own
children likewise. -/
def Chain (m : Heap) : Ptr → Link → Dcache → Prop
  | parent, l, .nil => l = .subdirs parent
  | parent, l, .cons d sub next =>
      l = .child d.ptr ∧ m.dentry d.ptr = d ∧ m.dParent d.ptr = parent ∧
        m.Chain d.ptr (m.next (.subdirs d.ptr)) sub ∧ m.Chain parent (m.next (.child d.ptr)) next

/-- The tree below the dentry at `root` is `t`, with every dentry at an
address of its own. -/
structure Holds (m : Heap) (root : Ptr) (t : Dcache) : Prop where
  chain : m.Chain root (m.next (.subdirs root)) t
  nodup : (root :: Forest.keys Dentry.ptr t).Nodup

/-- Only the pointers and the dentries of the tree count. -/
theorem Chain.congr (hc : m.Chain parent l t) (hnext : m'.next = m.next)
    (hparent : m'.dParent = m.dParent)
    (hdentry : ∀ k ∈ Forest.keys Dentry.ptr t, m'.dentry k = m.dentry k) :
    m'.Chain parent l t := by
  induction t generalizing parent l with
  | nil => exact hc
  | cons d sub next ihs ihn =>
      obtain ⟨hl, hd, hp, hs, hn⟩ := hc
      simp only [Forest.keys, List.mem_cons, List.mem_append] at hdentry
      refine ⟨hl, (hdentry _ (.inl rfl)).trans hd, (congrFun hparent _).trans hp, ?_, ?_⟩
      · rw [hnext]
        exact ihs hs fun k hk => hdentry k (.inr (.inl hk))
      · rw [hnext]
        exact ihn hn fun k hk => hdentry k (.inr (.inr hk))

/-- `atomic_dec` of these dentries, one after the other. -/
def decAll (m : Heap) (ks : List Ptr) : Heap := ks.foldl atomicDec m

@[simp] theorem decAll_nil : m.decAll [] = m := rfl
@[simp] theorem decAll_cons {ks : List Ptr} : m.decAll (k :: ks) = (m.atomicDec k).decAll ks := rfl

theorem decAll_append {ks ks' : List Ptr} : m.decAll (ks ++ ks') = (m.decAll ks).decAll ks' :=
  List.foldl_append

@[simp] theorem next_decAll {ks : List Ptr} : (m.decAll ks).next = m.next := by
  induction ks generalizing m with
  | nil => rfl
  | cons k ks ih => rw [decAll_cons, ih]; rfl

@[simp] theorem dParent_decAll {ks : List Ptr} : (m.decAll ks).dParent = m.dParent := by
  induction ks generalizing m with
  | nil => rfl
  | cons k ks ih => rw [decAll_cons, ih]; rfl

theorem dentry_atomicDec_of_ne {j : Ptr} (h : j ≠ k) : (m.atomicDec k).dentry j = m.dentry j :=
  if_neg h

/-- Nothing else is written. -/
theorem dentry_decAll_of_not_mem {ks : List Ptr} (hk : k ∉ ks) :
    (m.decAll ks).dentry k = m.dentry k := by
  induction ks generalizing m with
  | nil => rfl
  | cons j ks ih =>
      simp only [List.mem_cons, not_or] at hk
      rw [decAll_cons, ih hk.2, dentry_atomicDec_of_ne hk.1]

/-- Each of them loses one reference, if each occurs once. -/
theorem dentry_decAll_of_mem {ks : List Ptr} (hn : ks.Nodup) (hk : k ∈ ks) :
    (m.decAll ks).dentry k = (m.dentry k).dec := by
  induction ks generalizing m with
  | nil => cases hk
  | cons j ks ih =>
      obtain ⟨hj, hn⟩ := List.nodup_cons.mp hn
      rw [decAll_cons]
      rcases List.mem_cons.mp hk with rfl | hk
      · rw [dentry_decAll_of_not_mem hj]
        exact if_pos rfl
      · have hkj : k ≠ j := fun heq => hj (heq ▸ hk)
        rw [ih hn hk, dentry_atomicDec_of_ne hkj]

end Heap

/-! ## what the loop does -/

namespace Walk

open Umount (Skipped genocided)

/-- The dentries of a sibling list that lose a reference, in the order in
which they do. -/
def victims : Dcache → List Ptr
  | .nil => []
  | .cons d sub next =>
      if Skipped d then victims next else victims sub ++ d.ptr :: victims next

theorem victims_subset (t : Dcache) : victims t ⊆ Forest.keys Dentry.ptr t := by
  induction t with
  | nil => exact List.Subset.refl _
  | cons d sub next ihs ihn =>
      intro k hk
      simp only [Forest.keys, List.mem_cons, List.mem_append]
      unfold victims at hk
      split at hk
      · exact .inr (.inr (ihn hk))
      · rcases List.mem_append.mp hk with hk | hk
        · exact .inr (.inl (ihs hk))
        · rcases List.mem_cons.mp hk with rfl | hk
          · exact .inl rfl
          · exact .inr (.inr (ihn hk))

/-- No dentry loses two. -/
theorem nodup_victims {t : Dcache} (hn : (Forest.keys Dentry.ptr t).Nodup) : (victims t).Nodup := by
  induction t with
  | nil => exact List.nodup_nil
  | cons d sub next ihs ihn =>
      simp only [Forest.keys, List.nodup_cons, List.mem_append, not_or, List.nodup_append] at hn
      obtain ⟨⟨hds, hdn⟩, hns, hnn, hsn⟩ := hn
      unfold victims
      split
      · exact ihn hnn
      · simp only [List.nodup_append, List.nodup_cons, List.mem_cons]
        refine ⟨ihs hns, ⟨fun hd => hdn (victims_subset next hd), ihn hnn⟩, ?_⟩
        rintro a ha b (rfl | hb) rfl
        · exact hds (victims_subset sub ha)
        · exact hsn a (victims_subset sub ha) a (victims_subset next hb) rfl

/-- The dentry at an address is below the root, and it and all its ancestors
below the root are hashed and positive. -/
def Counted (t : Dcache) (k : Ptr) : Prop :=
  ∃ x ∈ Forest.postorder [] t, x.2.ptr = k ∧ ∀ a ∈ x.2 :: x.1, a.positive = true

theorem positive_iff {d : Dentry} : d.positive = true ↔ ¬ Skipped d := by
  cases hi : d.dInode <;> cases hu : d.dUnhashed <;> simp [Dentry.positive, Skipped, hi, hu]

theorem mem_victims_iff {t : Dcache} {k : Ptr} : k ∈ victims t ↔ Counted t k := by
  have heq : victims t =
      ((Forest.through Dentry.positive t).filter Dentry.positive).map Dentry.ptr := by
    induction t with
    | nil => rfl
    | cons d sub next ihs ihn =>
        rw [victims, Forest.through]
        by_cases hd : Skipped d
        · simp [hd, ihn, positive_iff]
        · simp [hd, ihs, ihn, positive_iff]
  rw [heq, List.mem_map]
  simp only [List.mem_filter, Forest.mem_through, List.all_eq_true]
  constructor
  · rintro ⟨d, ⟨⟨up, hmem, hup⟩, hd⟩, rfl⟩
    exact ⟨(up, d), hmem, rfl, List.forall_mem_cons.mpr ⟨hd, hup⟩⟩
  · rintro ⟨⟨up, d⟩, hmem, rfl, hall⟩
    obtain ⟨hd, hup⟩ := List.forall_mem_cons.mp hall
    exact ⟨d, ⟨⟨up, hmem, hup⟩, hd⟩, rfl⟩

section Rounds

variable {root parent k : Ptr} {m : Heap} {d : Dentry}

/-- The round at a child. -/
theorem step_child :
    step root (.resume m parent (.child k)) =
      if Skipped (m.dentry k) then .resume m parent (m.next (.child k))
      else if !m.listEmpty k then .again m k
      else .resume (m.atomicDec k) parent (m.next (.child k)) := by
  rw [step, if_pos (by simp)]
  rfl

theorem step_skipped (hd : m.dentry d.ptr = d) (hskip : Skipped d) :
    step root (.resume m parent (.child d.ptr)) = .resume m parent (m.next (.child d.ptr)) := by
  rw [step_child, hd, if_pos hskip]

theorem step_childless (hd : m.dentry d.ptr = d) (hskip : ¬ Skipped d)
    (hsub : m.next (.subdirs d.ptr) = .subdirs d.ptr) :
    step root (.resume m parent (.child d.ptr)) =
      .resume (m.atomicDec d.ptr) parent (m.next (.child d.ptr)) := by
  rw [step_child, hd, if_neg hskip, if_neg (by simp [Heap.listEmpty, hsub])]

theorem step_enter (hd : m.dentry d.ptr = d) (hskip : ¬ Skipped d)
    (hsub : m.next (.subdirs d.ptr) ≠ .subdirs d.ptr) :
    step root (.resume m parent (.child d.ptr)) = .again m d.ptr := by
  rw [step_child, hd, if_neg hskip, if_pos (by simp [Heap.listEmpty, hsub])]

/-- The round after the last child. -/
theorem step_leave (hroot : parent ≠ root) :
    step root (.resume m parent (.subdirs parent)) =
      .resume (m.atomicDec parent) (m.dParent parent) (m.next (.child parent)) :=
  (if_neg (by simp)).trans (if_pos hroot)

theorem step_last : step root (.resume m root (.subdirs root)) = .done m :=
  (if_neg (by simp)).trans (if_neg (by simp))

end Rounds

/-- The loop passes the children that are left, and all below them. -/
theorem iterate_resume {root parent : Ptr} {m : Heap} {l : Link} {t : Dcache}
    (hc : m.Chain parent l t) (hn : (Forest.keys Dentry.ptr t).Nodup)
    (hroot : root ∉ Forest.keys Dentry.ptr t) :
    ∃ n, (step root)^[n] (.resume m parent l) =
      .resume (m.decAll (victims t)) parent (.subdirs parent) := by
  induction t generalizing m parent l with
  | nil =>
      obtain rfl : l = .subdirs parent := hc
      exact ⟨0, rfl⟩
  | cons d sub next ihs ihn =>
      obtain ⟨rfl, hd, hp, hs, hnx⟩ := hc
      simp only [Forest.keys, List.nodup_cons, List.mem_append, not_or, List.nodup_append] at hn
      obtain ⟨⟨hds, hdn⟩, hns, hnn, hsn⟩ := hn
      simp only [Forest.keys, List.mem_cons, List.mem_append, not_or] at hroot
      obtain ⟨hrd, hrs, hrn⟩ := hroot
      by_cases hskip : Skipped d
      · obtain ⟨n, hn⟩ := ihn hnx hnn hrn
        refine ⟨n + 1, ?_⟩
        rw [Function.iterate_succ_apply, step_skipped hd hskip, hn, victims, if_pos hskip]
      -- what is left of the siblings is not touched below `d`
      have hrest :
          (m.decAll (victims sub ++ [d.ptr])).Chain parent (m.next (.child d.ptr)) next := by
        refine hnx.congr Heap.next_decAll Heap.dParent_decAll fun k hk => ?_
        refine Heap.dentry_decAll_of_not_mem fun hmem => ?_
        rcases List.mem_append.mp hmem with hmem | hmem
        · exact hsn k (victims_subset sub hmem) k hk rfl
        · exact hdn (List.mem_singleton.mp hmem ▸ hk)
      obtain ⟨n₂, hn₂⟩ := ihn hrest hnn hrn
      rw [← Heap.decAll_append, List.append_assoc, List.singleton_append] at hn₂
      rw [victims, if_neg hskip]
      by_cases hsub : m.next (.subdirs d.ptr) = .subdirs d.ptr
      · obtain rfl : sub = .nil := by
          cases sub with
          | nil => rfl
          | cons c s n =>
              obtain ⟨hl, -⟩ := hs
              rw [hsub] at hl
              cases hl
        refine ⟨n₂ + 1, ?_⟩
        rw [Function.iterate_succ_apply, step_childless hd hskip hsub]
        exact hn₂
      · -- down into the children, through them, and up again
        obtain ⟨n₁, hn₁⟩ := ihs hs hns hrs
        refine ⟨n₂ + 1 + n₁ + 1 + 1, ?_⟩
        rw [Function.iterate_succ_apply, step_enter hd hskip hsub, Function.iterate_succ_apply,
          step, Function.iterate_add_apply, hn₁, Function.iterate_succ_apply,
          step_leave (Ne.symm hrd), Heap.dParent_decAll, hp, Heap.next_decAll]
        rw [Heap.decAll_append] at hn₂ ⊢
        rw [Heap.decAll_append] at hn₂
        exact hn₂

/-- The loop ends, and has taken one reference from each victim, in order. -/
theorem iterate_wjfsDGenocide {root : Ptr} {m : Heap} {t : Dcache} (hm : m.Holds root t) :
    ∃ n, (step root)^[n] (m.wjfsDGenocide root) = .done (m.decAll (victims t)) := by
  obtain ⟨hroot, hn⟩ := List.nodup_cons.mp hm.nodup
  obtain ⟨n, hiter⟩ := iterate_resume hm.chain hn hroot
  refine ⟨1 + n + 1, ?_⟩
  rw [Function.iterate_succ_apply, Heap.wjfsDGenocide, step, Function.iterate_add_apply, hiter,
    Function.iterate_one, step_last]

/-- The dentries after the loop. -/
theorem dentry_victims {m : Heap} {t : Dcache} (hn : (Forest.keys Dentry.ptr t).Nodup) (k : Ptr) :
    (m.decAll (victims t)).dentry k =
      if k ∈ victims t then (m.dentry k).dec else m.dentry k := by
  split
  · next hk => exact Heap.dentry_decAll_of_mem (nodup_victims hn) hk
  · next hk => exact Heap.dentry_decAll_of_not_mem hk

/-- With one reference less at each victim, memory holds what the loop of
`Wjfs.Umount` makes of the tree. -/
theorem chain_genocided {parent : Ptr} {m m' : Heap} {l : Link} {t : Dcache}
    (hc : m.Chain parent l t) (hn : (Forest.keys Dentry.ptr t).Nodup) (hnext : m'.next = m.next)
    (hparent : m'.dParent = m.dParent)
    (hdentry : ∀ k ∈ Forest.keys Dentry.ptr t,
      m'.dentry k = if k ∈ victims t then (m.dentry k).dec else m.dentry k) :
    m'.Chain parent l (genocided t) := by
  induction t generalizing parent l with
  | nil => exact hc
  | cons d sub next ihs ihn =>
      obtain ⟨hl, hd, hp, hs, hnx⟩ := hc
      simp only [Forest.keys, List.nodup_cons, List.mem_append, not_or, List.nodup_append] at hn
      obtain ⟨⟨hds, hdn⟩, hns, hnn, hsn⟩ := hn
      simp only [Forest.keys, List.mem_cons, List.mem_append] at hdentry
      have hp' : m'.dParent d.ptr = parent := (congrFun hparent _).trans hp
      have hd' := hdentry d.ptr (.inl rfl)
      have hvs : ∀ k ∈ Forest.keys Dentry.ptr sub, k ∉ victims next := fun k hk hv =>
        hsn k hk k (victims_subset next hv) rfl
      have hvn : ∀ k ∈ Forest.keys Dentry.ptr next, k ∉ victims sub := fun k hk hv =>
        hsn k (victims_subset sub hv) k hk rfl
      by_cases hskip : Skipped d
      · rw [genocided, if_pos hskip]
        rw [victims, if_pos hskip] at hdentry hd'
        refine ⟨hl, ?_, hp', ?_, ?_⟩
        · rw [hd', if_neg fun hv => hdn (victims_subset next hv), hd]
        · rw [hnext]
          refine hs.congr hnext hparent fun k hk => ?_
          rw [hdentry k (.inr (.inl hk)), if_neg (hvs k hk)]
        · rw [hnext]
          exact ihn hnx hnn fun k hk => hdentry k (.inr (.inr hk))
      · rw [genocided, if_neg hskip]
        rw [victims, if_neg hskip] at hdentry hd'
        simp only [List.mem_append, List.mem_cons] at hdentry hd'
        refine ⟨hl, ?_, hp', ?_, ?_⟩
        · rw [Dentry.ptr_dec, hd', if_pos (.inr (.inl trivial)), hd]
        · rw [Dentry.ptr_dec, hnext]
          refine ihs hs hns fun k hk => ?_
          have hkd : k ≠ d.ptr := fun heq => hds (heq ▸ hk)
          rw [hdentry k (.inr (.inl hk))]
          simp only [hkd, hvs k hk, or_false]
        · rw [Dentry.ptr_dec, hnext]
          refine ihn hnx hnn fun k hk => ?_
          have hkd : k ≠ d.ptr := fun heq => hdn (heq ▸ hk)
          rw [hdentry k (.inr (.inr hk))]
          simp only [hkd, hvn k hk, false_or]

end Walk

/-! ## the whole loop -/

open Umount (Skipped genocided)

/-- **The two models of the loop agree**: it ends, and leaves in memory the
tree that the loop of `Wjfs.Umount` leaves. -/
theorem Heap.Holds.genocided {m : Heap} {root : Ptr} {t : Dcache} (hm : m.Holds root t) :
    ∃ n m', (Walk.step root)^[n] (m.wjfsDGenocide root) = .done m' ∧
      m'.Chain root (m'.next (.subdirs root)) (Umount.genocided t) := by
  obtain ⟨n, hn⟩ := Walk.iterate_wjfsDGenocide hm
  have hnodup := (List.nodup_cons.mp hm.nodup).2
  refine ⟨n, _, hn, ?_⟩
  rw [Heap.next_decAll]
  exact Walk.chain_genocided hm.chain hnodup Heap.next_decAll Heap.dParent_decAll
    fun k _ => Walk.dentry_victims hnodup k

/-- **`wjfs_d_genocide` is its recursive specification.**  On every tree in
memory the loop ends.  Each dentry below the root that is hashed and positive,
with all its ancestors below the root, has then lost one reference; every
other dentry, and every pointer, is what it was. -/
theorem genocide_spec {m : Heap} {root : Ptr} {t : Dcache} (hm : m.Holds root t) :
    ∃ n m', (Walk.step root)^[n] (m.wjfsDGenocide root) = .done m' ∧
      m'.next = m.next ∧ m'.dParent = m.dParent ∧
      ∀ k, (Walk.Counted t k → m'.dentry k = (m.dentry k).dec) ∧
        (¬ Walk.Counted t k → m'.dentry k = m.dentry k) := by
  obtain ⟨n, hn⟩ := Walk.iterate_wjfsDGenocide hm
  have hnodup := Walk.nodup_victims (List.nodup_cons.mp hm.nodup).2
  refine ⟨n, _, hn, Heap.next_decAll, Heap.dParent_decAll, fun k => ⟨fun hk => ?_, fun hk => ?_⟩⟩
  · exact Heap.dentry_decAll_of_mem hnodup (Walk.mem_victims_iff.mpr hk)
  · exact Heap.dentry_decAll_of_not_mem fun hv => hk (Walk.mem_victims_iff.mp hv)

/-- A directory at address 1 with a file at 2 and an unhashed file at 3. -/
def smallTree : Dcache :=
  .cons ⟨1, [100], some 0, 2, false, true, false⟩
    (.cons ⟨2, [102], some 0, 1, false, true, false⟩ .nil
      (.cons ⟨3, [103], some 0, 1, true, true, false⟩ .nil .nil)) .nil

/-- That tree in memory, below a root at address 0. -/
def smallHeap : Heap where
  dentry k :=
    if k = 1 then ⟨1, [100], some 0, 2, false, true, false⟩
    else if k = 2 then ⟨2, [102], some 0, 1, false, true, false⟩
    else ⟨3, [103], some 0, 1, true, true, false⟩
  next l :=
    match l with
    | .subdirs 0 => .child 1
    | .subdirs 1 => .child 2
    | .child 1 => .subdirs 0
    | .child 2 => .child 3
    | .child 3 => .subdirs 1
    | l => l
  dParent k := if k = 1 then 0 else 1

/-- There the loop takes one reference from 1 and from 2, and none from 3. -/
theorem genocide_spec_smallTree :
    smallHeap.Holds 0 smallTree ∧
      ∃ n m', (Walk.step 0)^[n] (smallHeap.wjfsDGenocide 0) = .done m' ∧
        (m'.dentry 1).dCount = 1 ∧ (m'.dentry 2).dCount = 0 ∧ (m'.dentry 3).dCount = 1 := by
  have hm : smallHeap.Holds 0 smallTree := by
    constructor
    · simp [smallTree, smallHeap, Heap.Chain]
    · decide
  have hcounted : ∀ k, Walk.Counted smallTree k ↔ 2 = k ∨ 1 = k := fun k => by
    simp [Walk.Counted, smallTree, Forest.postorder, Dentry.positive]
  obtain ⟨n, m', hn, -, -, hdentry⟩ := genocide_spec hm
  refine ⟨hm, n, m', hn, ?_, ?_, ?_⟩
  · rw [(hdentry 1).1 (by simp [hcounted])]
    rfl
  · rw [(hdentry 2).1 (by simp [hcounted])]
    rfl
  · rw [(hdentry 3).2 (by simp [hcounted])]
    rfl

end Wjfs
