import Mathlib.Tactic.Ring
import Wjfs.Dcache.Laws

/-!
# Wjfs.Dcache.Sound

Reference counting, stated once for the whole tree.

A dentry's count is accounted for in full: one reference for each child, the
references `ext` from outside the tree (open files, calls in progress) and
the pins `pin` that the filesystem itself holds.  The root is pinned twice,
by the superblock and by the mount; any other dentry at most once.

`Sound.dput` is the rule for dropping a reference: whatever `dput` kills on
its way up was not pinned.
-/

namespace Wjfs

namespace Dcache

/-- The tree with root `root`, all of whose references are accounted for; its
dentries are killed by their last `dput`. -/
structure Sound (t : Dcache) (root : Ptr) (ext pin : Ptr → Nat) : Prop where
  nodup : t.ptrs.Nodup
  root_mem : root ∈ t.ptrs
  top : ∀ x ∈ t.nodes, x.1 = none → x.2.ptr = root
  op : ∀ p d, (some p, d) ∈ t.nodes → d.dOp = true
  count : ∀ x ∈ t.nodes, x.2.dCount = t.kids x.2.ptr + ext x.2.ptr + pin x.2.ptr
  pos : ∀ x ∈ t.nodes, 1 ≤ x.2.dCount
  pin_root : pin root = 2
  pin_le : ∀ p d, (some p, d) ∈ t.nodes → pin d.ptr ≤ 1

/-- One more reference at `k`. -/
def bump (ext : Ptr → Nat) (k : Ptr) : Ptr → Nat := fun j => ext j + if j = k then 1 else 0

/-- The node is in the tree, up to its count. -/
def Has (t : Dcache) (x : Option Ptr × Dentry) : Prop := ∃ c, (x.1, x.2.withCount c) ∈ t.nodes

/-- The nodes of `t'` are nodes of `t`, up to their counts. -/
def Within (t' t : Dcache) : Prop := ∀ y ∈ t'.nodes, t.Has y

variable {t t' t'' : Dcache} {root k p : Ptr} {ext ext' pin pin' : Ptr → Nat} {d : Dentry}
  {x : Option Ptr × Dentry}

theorem Has.of_mem (hx : x ∈ t.nodes) : t.Has x := ⟨x.2.dCount, hx⟩

theorem Within.refl (t : Dcache) : Within t t := fun _ => Has.of_mem

theorem Within.has (h : Within t' t) (hx : t'.Has x) : t.Has x := by
  obtain ⟨c, hc⟩ := hx
  obtain ⟨b, hb⟩ := h _ hc
  exact ⟨b, hb⟩

theorem Within.trans (h1 : Within t'' t') (h2 : Within t' t) : Within t'' t :=
  fun y hy => h2.has (h1 y hy)

/-- An update of counts leaves every node in place. -/
theorem has_update {f : Dentry → Dentry} (hf : ∀ d, ∃ c, f d = d.withCount c) (hx : x ∈ t.nodes) :
    (t.update k f).Has x := by
  have hk : Keeps f := fun d => by obtain ⟨c, hc⟩ := hf d; rw [hc]; rfl
  obtain ⟨c, hc⟩ := hf x.2
  rw [Has, nodes_update hk]
  by_cases h : x.2.ptr = k
  · exact ⟨c, List.mem_map.mpr ⟨x, hx, by rw [if_pos h, hc]⟩⟩
  · exact ⟨x.2.dCount, List.mem_map.mpr ⟨x, hx, by rw [if_neg h]; rfl⟩⟩

theorem within_update {f : Dentry → Dentry} (hf : ∀ d, ∃ c, f d = d.withCount c) :
    Within (t.update k f) t := by
  have hk : Keeps f := fun d => by obtain ⟨c, hc⟩ := hf d; rw [hc]; rfl
  intro y hy
  rw [nodes_update hk] at hy
  obtain ⟨x, hx, rfl⟩ := List.mem_map.mp hy
  obtain ⟨c, hc⟩ := hf x.2
  refine ⟨x.2.dCount, ?_⟩
  by_cases h : x.2.ptr = k
  · simp only [if_pos h, hc, Dentry.withCount_withCount]
    exact hx
  · simp only [if_neg h]
    exact hx

namespace Sound

/-- Only the references to dentries that are there count. -/
theorem congr (h : t.Sound root ext pin) (he : ∀ k ∈ t.ptrs, ext k = ext' k)
    (hp : ∀ k ∈ t.ptrs, pin k = pin' k) : t.Sound root ext' pin' where
  nodup := h.nodup
  root_mem := h.root_mem
  top := h.top
  op := h.op
  count x hx := by
    have hm := mem_ptrs_of_mem hx
    rw [h.count x hx, he _ hm, hp _ hm]
  pos := h.pos
  pin_root := by rw [← hp _ h.root_mem, h.pin_root]
  pin_le p d hx := by
    rw [← hp _ (mem_ptrs_of_mem hx)]
    exact h.pin_le p d hx

/-- Every dentry but the root has a parent. -/
theorem exists_parent (h : t.Sound root ext pin) {x : Option Ptr × Dentry} (hx : x ∈ t.nodes)
    (hr : x.2.ptr ≠ root) : ∃ p, x.1 = some p := by
  cases hp : x.1 with
  | none => exact absurd (h.top x hx hp) hr
  | some p => exact ⟨p, rfl⟩

/-- Taking a leaf out leaves its parent with a reference to drop. -/
theorem unlinkChild (h : t.Sound root ext pin) (hx : (some p, d) ∈ t.nodes)
    (h0 : t.kids d.ptr = 0) : (t.unlinkChild d.ptr).Sound root (bump ext p) pin := by
  have hmem := fun x => mem_nodes_unlinkChild h.nodup h0 (x := x)
  refine ⟨nodup_unlinkChild h.nodup, ?_, ?_, ?_, ?_, ?_, h.pin_root, ?_⟩
  · obtain ⟨x, hxr, hxk⟩ := Forest.exists_mem_flat h.root_mem none
    have hne : x.2.ptr ≠ d.ptr := by
      intro heq
      have hle := h.pin_le p d hx
      rw [← heq, hxk, h.pin_root] at hle
      omega
    rw [← hxk]
    exact mem_ptrs_of_mem ((hmem x).mpr ⟨hxr, hne⟩)
  · exact fun x hx' => h.top x ((hmem x).mp hx').1
  · exact fun q e hx' => h.op q e ((hmem _).mp hx').1
  · intro x hx'
    have hk := kids_unlinkChild (k := x.2.ptr) h.nodup hx h0
    rw [h.count x ((hmem x).mp hx').1, hk, bump]
    by_cases hpk : p = x.2.ptr
    · simp [hpk]
      ring
    · simp [hpk, Ne.symm hpk]
  · exact fun x hx' => h.pos x ((hmem x).mp hx').1
  · exact fun q e hx' => h.pin_le q e ((hmem _).mp hx').1

theorem within_unlinkChild (h : t.Sound root ext pin) (h0 : t.kids k = 0) :
    Within (t.unlinkChild k) t :=
  fun _ hy => Has.of_mem ((mem_nodes_unlinkChild h.nodup h0).mp hy).1

/-- A new count for one dentry, with a new account of its references. -/
theorem recount (h : t.Sound root ext pin) {f : Dentry → Dentry}
    (hf : ∀ d, ∃ c, f d = d.withCount c)
    (hc : ∀ x, t.node? k = some x →
      (f x.2).dCount = t.kids k + ext' k + pin' k ∧ 1 ≤ (f x.2).dCount)
    (hext : ∀ j, j ≠ k → ext' j = ext j) (hpin : ∀ j, j ≠ k → pin' j = pin j)
    (hroot : pin' root = 2) (hle : k ≠ root → pin' k ≤ 1) :
    (t.update k f).Sound root ext' pin' := by
  have hkeep : Keeps f := fun d => by obtain ⟨c, hc⟩ := hf d; rw [hc]; rfl
  -- every node of the new tree is one of the old tree, or the one at `k` with its new count
  have hmem : ∀ y ∈ (t.update k f).nodes, ∃ z ∈ t.nodes,
      y = (z.1, if z.2.ptr = k then f z.2 else z.2) := by
    intro y hy
    rw [nodes_update hkeep] at hy
    obtain ⟨z, hz, rfl⟩ := List.mem_map.mp hy
    exact ⟨z, hz, rfl⟩
  have hptr : ∀ z : Option Ptr × Dentry, (if z.2.ptr = k then f z.2 else z.2).ptr = z.2.ptr := by
    intro z
    by_cases hk : z.2.ptr = k
    · rw [if_pos hk, hkeep]
    · rw [if_neg hk]
  refine ⟨by simpa [hkeep] using h.nodup, by simpa [hkeep] using h.root_mem, ?_, ?_, ?_, ?_,
    hroot, ?_⟩
  · intro y hy hnone
    obtain ⟨z, hz, rfl⟩ := hmem y hy
    simp only [hptr]
    exact h.top z hz hnone
  · intro q e hy
    obtain ⟨z, hz, hze⟩ := hmem _ hy
    obtain ⟨hq, rfl⟩ := Prod.mk.inj hze
    have hop := h.op q z.2 (by rw [hq]; exact hz)
    by_cases hk : z.2.ptr = k
    · obtain ⟨c, hfc⟩ := hf z.2
      rw [if_pos hk, hfc]
      exact hop
    · rw [if_neg hk]
      exact hop
  · intro y hy
    obtain ⟨z, hz, rfl⟩ := hmem y hy
    simp only [hptr, kids_update hkeep]
    by_cases hk : z.2.ptr = k
    · rw [if_pos hk, hk]
      exact (hc z (hk ▸ node?_of_mem h.nodup hz)).1
    · rw [if_neg hk, h.count z hz, hext _ hk, hpin _ hk]
  · intro y hy
    obtain ⟨z, hz, rfl⟩ := hmem y hy
    by_cases hk : z.2.ptr = k
    · simp only [if_pos hk]
      exact (hc z (hk ▸ node?_of_mem h.nodup hz)).2
    · simp only [if_neg hk]
      exact h.pos z hz
  · intro q e hy
    obtain ⟨z, hz, hze⟩ := hmem _ hy
    obtain ⟨hq, rfl⟩ := Prod.mk.inj hze
    rw [hptr]
    by_cases hk : z.2.ptr = k
    · rw [hk]
      refine hle fun hkr => ?_
      have hle := h.pin_le q z.2 (by rw [hq]; exact hz)
      rw [hk, hkr, h.pin_root] at hle
      omega
    · rw [hpin _ hk]
      exact h.pin_le q z.2 (by rw [hq]; exact hz)

theorem pin_le_of_ne (h : t.Sound root ext pin) (hk : k ∈ t.ptrs) (hr : k ≠ root) :
    pin k ≤ 1 := by
  obtain ⟨x, hx, rfl⟩ := Forest.exists_mem_flat hk none
  obtain ⟨p, hp⟩ := h.exists_parent hx hr
  exact h.pin_le p x.2 (by rw [← hp]; exact hx)

/-- Dropping a reference that is not the last one. -/
theorem update_dec (h : t.Sound root (bump ext k) pin) (hx : t.node? k = some x)
    (hc : x.2.dCount ≠ 1) : (t.update k Dentry.dec).Sound root ext pin := by
  refine h.recount (fun d => ⟨_, rfl⟩) (fun y hy => ?_) (fun j hj => by simp [bump, hj])
    (fun _ _ => rfl) h.pin_root (h.pin_le_of_ne (mem_ptrs_of_node? hx))
  rw [hx] at hy
  cases hy
  have hcount := h.count x (mem_nodes_of_node? hx)
  have hpos := h.pos x (mem_nodes_of_node? hx)
  rw [ptr_of_node? hx] at hcount
  simp only [bump, if_true] at hcount
  simp only [Dentry.dec]
  omega

/-- Taking a reference. -/
theorem dget (h : t.Sound root ext pin) (hk : k ∈ t.ptrs) :
    (t.dget k).Sound root (bump ext k) pin := by
  refine h.recount (fun d => ⟨_, rfl⟩) (fun y hy => ?_) (fun j hj => by simp [bump, hj])
    (fun _ _ => rfl) h.pin_root (h.pin_le_of_ne hk)
  have hcount := h.count y (mem_nodes_of_node? hy)
  have hpos := h.pos y (mem_nodes_of_node? hy)
  rw [ptr_of_node? hy] at hcount
  simp only [bump, if_true, Dentry.get]
  omega

/-- A new leaf takes over a reference to its parent and is pinned by the
reference it comes with. -/
theorem listAdd_leaf (h : t.Sound root (bump ext p) pin) (hp : p ∈ t.ptrs)
    (hd : d.ptr ∉ t.ptrs) (hl : d.dOp = true) (hc : d.dCount = 1) (he : ext d.ptr = 0) :
    (t.listAdd p (leaf d)).Sound root ext (Function.update pin d.ptr 1) := by
  have hmem := fun x => (nodes_listAdd_leaf (d := d) h.nodup hp).mem_iff (a := x)
  have hdp : p ≠ d.ptr := fun heq => hd (heq ▸ hp)
  have hne : ∀ x ∈ t.nodes, x.2.ptr ≠ d.ptr := fun x hx heq => hd (heq ▸ mem_ptrs_of_mem hx)
  have hk0 : t.kids d.ptr = 0 := by
    rw [kids, List.countP_eq_zero]
    intro x hx hxp
    rw [decide_eq_true_eq] at hxp
    exact hd (parent_mem_ptrs (d := x.2) (by rw [← hxp]; exact hx))
  refine ⟨nodup_listAdd_leaf h.nodup hp hd, ?_, ?_, ?_, ?_, ?_, ?_, ?_⟩
  · rw [(ptrs_listAdd_leaf h.nodup hp).mem_iff]
    exact List.mem_cons_of_mem _ h.root_mem
  · intro x hx hnone
    rcases List.mem_cons.mp ((hmem x).mp hx) with rfl | hx
    · cases hnone
    · exact h.top x hx hnone
  · intro q e hx
    rcases List.mem_cons.mp ((hmem _).mp hx) with heq | hx
    · cases heq
      exact hl
    · exact h.op q e hx
  · intro x hx
    rw [kids_listAdd_leaf h.nodup hp]
    rcases List.mem_cons.mp ((hmem x).mp hx) with rfl | hx
    · simp [hc, hk0, he, hdp]
    · rw [h.count x hx, Function.update_of_ne (hne x hx), bump]
      by_cases hpx : p = x.2.ptr
      · simp [hpx]
        ring
      · simp [hpx, Ne.symm hpx]
  · intro x hx
    rcases List.mem_cons.mp ((hmem x).mp hx) with rfl | hx
    · simp [hc]
    · exact h.pos x hx
  · have hroot : root ≠ d.ptr := fun heq => hd (heq ▸ h.root_mem)
    rw [Function.update_of_ne hroot, h.pin_root]
  · intro q e hx
    rcases List.mem_cons.mp ((hmem _).mp hx) with heq | hx
    · cases heq
      simp
    · rw [Function.update_of_ne (hne _ hx)]
      exact h.pin_le q e hx

/-- **Dropping a reference** keeps the account; what `dput` kills on its way
up was not pinned. -/
theorem dput (h : t.Sound root (bump ext k) pin) (hk : k ∈ t.ptrs) :
    (t.dput k).Sound root ext pin ∧ Within (t.dput k) t ∧
      ∀ x ∈ t.nodes, 1 ≤ pin x.2.ptr → (t.dput k).Has x := by
  induction hs : Forest.size t using Nat.strong_induction_on generalizing t k ext with
  | _ n ih =>
      obtain ⟨x, hxm, hxk⟩ := Forest.exists_mem_flat hk none
      have hx : t.node? k = some x := (node?_eq_some_iff h.nodup).mpr ⟨hxm, hxk⟩
      have hdec : ∀ d : Dentry, ∃ c, d.dec = d.withCount c := fun d => ⟨_, rfl⟩
      by_cases hc : x.2.dCount = 1
      swap
      · rw [dput_of_ne_one hx hc]
        exact ⟨h.update_dec hx hc, within_update hdec, fun y hy _ => has_update hdec hy⟩
      -- the last reference: no child, no pin, and so not the root
      have hcount := h.count x hxm
      rw [hc, hxk] at hcount
      simp only [bump, if_true] at hcount
      have h0 : t.kids k = 0 ∧ ext k = 0 ∧ pin k = 0 := by omega
      have hne : x.2.ptr ≠ root := by
        intro heq
        have := h.pin_root
        rw [← heq, hxk] at this
        omega
      obtain ⟨q, hq⟩ := h.exists_parent hxm hne
      obtain ⟨xq, d⟩ := x
      simp only at hq hc hxk
      subst hq hxk
      have hsub := h.unlinkChild hxm h0.1
      have hlt := size_unlinkChild_lt hk
      have hqmem : q ∈ (t.unlinkChild d.ptr).ptrs := by
        obtain ⟨y, hy, hyq⟩ := Forest.exists_mem_flat (parent_mem_ptrs hxm) none
        rw [← hyq]
        refine mem_ptrs_of_mem ((mem_nodes_unlinkChild h.nodup h0.1).mpr ⟨hy, ?_⟩)
        rw [hyq]
        exact parent_ne_ptr h.nodup hxm
      have hgone : d.ptr ∉ (t.unlinkChild d.ptr).ptrs := Forest.not_mem_keys_erase h.nodup
      have hsub' : (t.unlinkChild d.ptr).Sound root (bump ext q) pin := by
        refine hsub.congr (fun j hj => ?_) fun _ _ => rfl
        have hjd : j ≠ d.ptr := fun heq => hgone (heq ▸ hj)
        simp [bump, hjd]
      rw [dput_last hx hc (.inl (h.op q d hxm))]
      obtain ⟨i1, i2, i3⟩ := ih _ (by omega) hsub' hqmem rfl
      refine ⟨i1, i2.trans (h.within_unlinkChild h0.1), fun y hy hpin => i3 y ?_ hpin⟩
      refine (mem_nodes_unlinkChild h.nodup h0.1).mpr ⟨hy, fun heq => ?_⟩
      rw [heq] at hpin
      omega

end Sound

end Dcache

end Wjfs
