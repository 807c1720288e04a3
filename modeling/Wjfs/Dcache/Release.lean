import Wjfs.Dcache.Fade

/-!
# Wjfs.Dcache.Release

What the loop of `dput` takes out of a tree in which references are not
accounted for.

A dentry that loses its last reference is killed and drops the reference that
it has to its parent, so the loop may climb: `Released` are the dentries that it
kills.  With them goes whatever is below one of them, `Lost`.  Everything else
stays where it is, and only counts change: `mem_ptrs_dput_iff` and
`within_dput`.
-/

namespace Wjfs

namespace Dcache

variable {t : Dcache} {k j p q : Ptr} {d : Dentry} {x y : Option Ptr × Dentry}

/-- The dentries that a `dput` of `k` kills: `k` itself if that was its last
reference, and then its parent, if the child was all that held it, and so on. -/
inductive Released (t : Dcache) (k : Ptr) : Ptr → Prop
  | last {x : Option Ptr × Dentry} : x ∈ t.nodes → x.2.ptr = k → x.2.dCount = 1 → Released t k k
  | climb {p : Ptr} {d : Dentry} {x : Option Ptr × Dentry} : Released t k d.ptr →
      (some p, d) ∈ t.nodes → x ∈ t.nodes → x.2.ptr = p → x.2.dCount = 1 → Released t k p

/-- The dentries that are no longer in the tree after a `dput` of `k`: those
that it kills and what is below them. -/
inductive Lost (t : Dcache) (k : Ptr) : Ptr → Prop
  | released {j : Ptr} : Released t k j → Lost t k j
  | child {p : Ptr} {d : Dentry} : Lost t k p → (some p, d) ∈ t.nodes → Lost t k d.ptr

/-! ## one dentry is killed -/

theorem mem_nodes_of_unlinkChild (hy : y ∈ (t.unlinkChild k).nodes) : y ∈ t.nodes :=
  (Forest.flat_erase_sublist none t).subset hy

/-- What stays is the dentry that it was. -/
theorem mem_nodes_unlinkChild_of_mem_ptrs (hn : t.ptrs.Nodup) (hx : x ∈ t.nodes)
    (hk : x.2.ptr ∈ (t.unlinkChild k).ptrs) : x ∈ (t.unlinkChild k).nodes := by
  obtain ⟨y, hy, hptr⟩ := Forest.exists_mem_flat hk none
  cases Forest.eq_of_mem_flat hn (mem_nodes_of_unlinkChild hy) hx hptr
  exact hy

/-- The parent of a dentry that stays does so too. -/
theorem mem_ptrs_unlinkChild_of_child (hn : t.ptrs.Nodup) (hd : (some p, d) ∈ t.nodes)
    (hk : d.ptr ∈ (t.unlinkChild k).ptrs) : p ∈ (t.unlinkChild k).ptrs :=
  parent_mem_ptrs (mem_nodes_unlinkChild_of_mem_ptrs hn hd hk)

/-- And so does the parent of the one that is killed. -/
theorem parent_mem_ptrs_unlinkChild (hn : t.ptrs.Nodup) (hd : (some p, d) ∈ t.nodes) :
    p ∈ (t.unlinkChild d.ptr).ptrs :=
  (Forest.parent_mem_keys_erase hn hd).resolve_left (by simp)

/-- What goes with a dentry that is killed is lost. -/
theorem lost_of_not_mem_unlinkChild (hn : t.ptrs.Nodup) (hy : y ∈ t.nodes) (h1 : y.2.dCount = 1)
    (hx : x ∈ t.nodes) (hgone : x.2.ptr ∉ (t.unlinkChild y.2.ptr).ptrs) :
    t.Lost y.2.ptr x.2.ptr := by
  have hself : t.Lost y.2.ptr y.2.ptr := .released (.last hy rfl h1)
  rcases List.mem_cons.mp ((Forest.flat_erase hn hy).mem_iff.mp hx) with rfl | hx
  · exact hself
  rcases List.mem_append.mp hx with hsub | hstay
  · refine Forest.flat_induction (S := t.nodes) (P := fun z => t.Lost y.2.ptr z.2.ptr) ?_
      (Forest.flat_sub_subset hn) ?_ x hsub
    · rintro z - hz ⟨_, d⟩ hd rfl
      exact .child hz hd
    · rintro ⟨_, d⟩ hd rfl
      exact .child hself hd
  · exact absurd (mem_ptrs_of_mem (show x ∈ (t.unlinkChild y.2.ptr).nodes from hstay)) hgone

/-! ## the climb -/

/-- A dentry that is killed is in the tree. -/
theorem Released.mem_ptrs (h : t.Released k j) : j ∈ t.ptrs := by
  cases h with
  | last hx hptr _ => exact hptr ▸ mem_ptrs_of_mem hx
  | climb _ _ hx hptr _ => exact hptr ▸ mem_ptrs_of_mem hx

/-- Nothing is killed while somebody else holds the dentry. -/
theorem not_released (hn : t.ptrs.Nodup) (hx : x ∈ t.nodes) (hc : x.2.dCount ≠ 1) :
    ¬ t.Released x.2.ptr j := by
  intro h
  induction h with
  | last hy hptr h1 =>
      cases Forest.eq_of_mem_flat hn hy hx hptr
      exact hc h1
  | climb _ _ _ _ _ ih => exact ih

/-- And so nothing is lost. -/
theorem not_lost (hn : t.ptrs.Nodup) (hx : x ∈ t.nodes) (hc : x.2.dCount ≠ 1) :
    ¬ t.Lost x.2.ptr j := by
  intro h
  induction h with
  | released hrel => exact not_released hn hx hc hrel
  | child _ _ ih => exact ih

/-- The last reference to a dentry is followed by one to its parent. -/
theorem released_iff (hn : t.ptrs.Nodup) (hd : (some p, d) ∈ t.nodes) (h1 : d.dCount = 1) :
    t.Released d.ptr j ↔ j = d.ptr ∨ (t.unlinkChild d.ptr).Released p j := by
  have hpar := parent_mem_ptrs_unlinkChild hn hd
  constructor
  · intro h
    induction h with
    | last _ _ _ => exact .inl rfl
    | @climb q e x _ he hx hptr h1 ih =>
        subst hptr
        rcases ih with heq | hrel
        · cases Forest.eq_of_mem_flat hn he hd heq
          exact .inr (.last (mem_nodes_unlinkChild_of_mem_ptrs hn hx hpar) rfl h1)
        · have he' := mem_nodes_unlinkChild_of_mem_ptrs hn he hrel.mem_ptrs
          have hx' := mem_nodes_unlinkChild_of_mem_ptrs hn hx (parent_mem_ptrs he')
          exact .inr (.climb hrel he' hx' rfl h1)
  · rintro (rfl | h)
    · exact .last hd rfl h1
    · induction h with
      | last hx hptr h1' =>
          exact .climb (.last hd rfl h1) hd (mem_nodes_of_unlinkChild hx) hptr h1'
      | climb _ he hx hptr h1' ih =>
          exact .climb ih (mem_nodes_of_unlinkChild he) (mem_nodes_of_unlinkChild hx) hptr h1'

/-- The loop ends at a dentry without a parent. -/
theorem Released.eq_of_top (hn : t.ptrs.Nodup) (hd : (none, d) ∈ t.nodes)
    (h : t.Released d.ptr j) : j = d.ptr := by
  induction h with
  | last _ _ _ => rfl
  | climb _ he _ _ _ ih => cases Forest.eq_of_mem_flat hn he hd ih

/-- What is lost with a dentry, in a tree without it. -/
theorem lost_iff (hn : t.ptrs.Nodup) (hd : (some p, d) ∈ t.nodes) (h1 : d.dCount = 1)
    (hx : x ∈ t.nodes) : t.Lost d.ptr x.2.ptr ↔
      x.2.ptr ∉ (t.unlinkChild d.ptr).ptrs ∨ (t.unlinkChild d.ptr).Lost p x.2.ptr := by
  constructor
  · intro h
    generalize x.2.ptr = k at h
    induction h with
    | released hrel =>
        rcases (released_iff hn hd h1).mp hrel with rfl | hrel
        · exact .inl (Forest.not_mem_keys_erase hn)
        · exact .inr (.released hrel)
    | @child q e _ he ih =>
        by_cases hstay : e.ptr ∈ (t.unlinkChild d.ptr).ptrs
        · have hq := mem_ptrs_unlinkChild_of_child hn he hstay
          exact .inr (.child (ih.resolve_left fun h => h hq)
            (mem_nodes_unlinkChild_of_mem_ptrs hn he hstay))
        · exact .inl hstay
  · rintro (hgone | h)
    · exact lost_of_not_mem_unlinkChild hn hd h1 hx hgone
    · generalize x.2.ptr = k at h
      induction h with
      | released hrel => exact .released ((released_iff hn hd h1).mpr (.inr hrel))
      | child _ he ih => exact .child ih (mem_nodes_of_unlinkChild he)

/-- What is lost with a dentry without a parent. -/
theorem lost_top_iff (hn : t.ptrs.Nodup) (hd : (none, d) ∈ t.nodes) (h1 : d.dCount = 1)
    (hx : x ∈ t.nodes) : t.Lost d.ptr x.2.ptr ↔ x.2.ptr ∉ (t.unlinkChild d.ptr).ptrs := by
  refine ⟨fun h => ?_, lost_of_not_mem_unlinkChild hn hd h1 hx⟩
  generalize x.2.ptr = k at h
  induction h with
  | released hrel =>
      rw [hrel.eq_of_top hn hd]
      exact Forest.not_mem_keys_erase hn
  | child _ he ih => exact fun hstay => ih (mem_ptrs_unlinkChild_of_child hn he hstay)

/-- The directory of a dentry is lost with it exactly if nothing else holds either
of them. -/
theorem lost_parent_iff (hn : t.ptrs.Nodup) (hd : (some p, d) ∈ t.nodes) (hx : x ∈ t.nodes)
    (hp : x.2.ptr = p) : t.Lost d.ptr p ↔ d.dCount = 1 ∧ x.2.dCount = 1 := by
  subst hp
  by_cases h1 : d.dCount = 1
  · have hstay := parent_mem_ptrs_unlinkChild hn hd
    have hx' := mem_nodes_unlinkChild_of_mem_ptrs hn hx hstay
    rw [lost_iff hn hd h1 hx, or_iff_right (not_not.mpr hstay)]
    refine ⟨fun hlost => ⟨h1, ?_⟩, fun h => .released (.last hx' rfl h.2)⟩
    by_contra hc
    exact not_lost (nodup_unlinkChild hn) hx' hc hlost
  · exact iff_of_false (not_lost hn hd h1) fun h => h1 h.1

/-! ## the loop -/

/-- `dput` of the last reference to a dentry without a parent. -/
theorem dput_last_top (h : t.node? k = some (none, d)) (hc : d.dCount = 1)
    (hk : d.dOp = true ∨ d.dUnhashed = true) : t.dput k = t.unlinkChild k := by
  have hlt := size_unlinkChild_lt (mem_ptrs_of_node? h)
  obtain ⟨n, hs⟩ := Nat.exists_eq_succ_of_ne_zero (n := Forest.size t) (by omega)
  have hz : ¬ d.dCount - 1 ≠ 0 := by omega
  have hor : (d.dOp || d.dUnhashed) = true := by simpa using hk
  change dputLoop (Forest.size t) t k = _
  rw [hs, dputLoop, h]
  simp only [if_neg hz, if_pos hor]

/-- **What `dput` does to a tree**: it changes counts and takes out what is
lost. -/
theorem dput_spec (ht : t.Held) (hk : x ∈ t.nodes) :
    Within (t.dput x.2.ptr) t ∧
      ∀ y ∈ t.nodes, y.2.ptr ∈ (t.dput x.2.ptr).ptrs ↔ ¬ t.Lost x.2.ptr y.2.ptr := by
  induction hsize : Forest.size t using Nat.strongRecOn generalizing t x with
  | ind n ih =>
      subst hsize
      have hn := ht.nodup
      have hnode := node?_of_mem hn hk
      by_cases hc : x.2.dCount = 1
      · have hcut : Fades (fun _ => true) t (t.unlinkChild x.2.ptr) := .unlinkChild ht x.2.ptr
        obtain ⟨_ | p, d⟩ := x
        · rw [dput_last_top hnode hc (ht.dies _ hk)]
          refine ⟨fun y hy => .of_mem (mem_nodes_of_unlinkChild hy), fun y hy => ?_⟩
          rw [lost_top_iff hn hk hc hy, not_not]
        · rw [dput_last hnode hc (ht.dies _ hk)]
          obtain ⟨z, hz, rfl⟩ := Forest.exists_mem_flat (parent_mem_ptrs_unlinkChild hn hk) none
          have hlt := size_unlinkChild_lt (mem_ptrs_of_mem hk)
          obtain ⟨hwithin, hmem⟩ := ih _ hlt hcut.held hz rfl
          refine ⟨hwithin.trans fun y hy => .of_mem (mem_nodes_of_unlinkChild hy),
            fun y hy => ?_⟩
          rw [lost_iff hn hk hc hy, not_or, not_not]
          constructor
          · intro hstay
            have hy' : y.2.ptr ∈ (t.unlinkChild d.ptr).ptrs := by
              obtain ⟨w, hw, hptr⟩ := Forest.exists_mem_flat hstay none
              obtain ⟨b, hb⟩ := hwithin w hw
              have hmem' := mem_ptrs_of_mem hb
              rwa [Dentry.ptr_withCount, hptr] at hmem'
            exact ⟨hy', (hmem y (mem_nodes_unlinkChild_of_mem_ptrs hn hy hy')).mp hstay⟩
          · rintro ⟨hy', hlost⟩
            exact (hmem y (mem_nodes_unlinkChild_of_mem_ptrs hn hy hy')).mpr hlost
      · rw [dput_of_ne_one hnode hc]
        have hdec : ∀ d : Dentry, ∃ c, d.dec = d.withCount c := fun d => ⟨_, rfl⟩
        refine ⟨within_update hdec, fun y hy => ?_⟩
        rw [ptrs_update keeps_dec]
        exact iff_of_true (mem_ptrs_of_mem hy) (not_lost hn hk hc)

end Dcache

end Wjfs
