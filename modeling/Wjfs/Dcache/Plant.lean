import Wjfs.Dcache.Sound

/-!
# Wjfs.Dcache.Plant

A new leaf in the tree, from the moment `d_alloc` links it to its parent until
it is either given up or pinned.

Local and remote creation take and drop references in different orders; both
only ever move along the equations of this module.
-/

namespace Wjfs

namespace Dcache

variable {t : Dcache} {k p root : Ptr} {d : Dentry} {f : Dentry → Dentry} {name : Bytes}
  {x : Option Ptr × Dentry} {ext pin : Ptr → Nat}

/-- The tree with a new child `d` of `p`, which holds a reference to `p`. -/
def plant (t : Dcache) (p : Ptr) (d : Dentry) : Dcache := (t.dget p).listAdd p (leaf d)

theorem dAlloc_eq_plant {new : Ptr} : t.dAlloc p name new = t.plant p (newDentry new name) := rfl

@[simp] theorem ptrs_dget : (t.dget p).ptrs = t.ptrs := ptrs_update keeps_get

theorem update_plant (hk : d.ptr = k) (hf : Keeps f) (hd : d.ptr ∉ t.ptrs) :
    (t.plant p d).update k f = t.plant p (f d) := by
  subst hk
  exact update_listAdd_leaf hf (by simpa using hd)

/-- It does not matter whether a reference is taken before or after. -/
theorem plant_dget (hk : k ≠ d.ptr) : (t.dget k).plant p d = (t.plant p d).dget k := by
  rw [plant, plant, dget, dget, dget, dget, update_listAdd_leaf_ne keeps_get hk]
  by_cases hkp : k = p
  · rw [hkp]
  · rw [update_comm keeps_get keeps_get hkp]

section Planted

variable (hn : t.ptrs.Nodup) (hp : p ∈ t.ptrs) (hd : d.ptr ∉ t.ptrs)
include hn hp hd

theorem nodup_plant : (t.plant p d).ptrs.Nodup :=
  nodup_listAdd_leaf (by simpa using hn) (by simpa using hp) (by simpa using hd)

theorem node?_plant_self (hk : d.ptr = k) : (t.plant p d).node? k = some (some p, d) := by
  subst hk
  exact node?_listAdd_leaf_self (by simpa using hn) (by simpa using hp) (by simpa using hd)

theorem node?_plant_ne (hk : k ≠ d.ptr) : (t.plant p d).node? k = (t.dget p).node? k :=
  node?_listAdd_leaf_ne (by simpa using hn) (by simpa using hp) (by simpa using hd) hk

theorem node?_plant_parent (hx : t.node? p = some x) :
    (t.plant p d).node? p = some (x.1, x.2.get) := by
  have hpd : p ≠ d.ptr := fun heq => hd (heq ▸ hp)
  rw [node?_plant_ne hn hp hd hpd]
  exact node?_update_self keeps_get hx

/-- What a new leaf leaves of the other dentries: all but a count. -/
theorem map_node?_plant {β : Type} {F : Option Ptr × Dentry → β}
    (hF : ∀ q e, F (q, Dentry.get e) = F (q, e)) (hk : k ≠ d.ptr) :
    ((t.plant p d).node? k).map F = (t.node? k).map F := by
  rw [node?_plant_ne hn hp hd hk, dget, node?_update keeps_get, Option.map_map]
  refine congrArg (fun f => (t.node? k).map f) (funext fun x => ?_)
  by_cases hx : x.2.ptr = p
  · simp only [Function.comp_apply, if_pos hx]
    exact hF x.1 x.2
  · simp only [Function.comp_apply, if_neg hx]

omit hd in
theorem mem_nodes_plant {y : Option Ptr × Dentry} :
    y ∈ (t.plant p d).nodes ↔ y = (some p, d) ∨ y ∈ (t.dget p).nodes := by
  rw [plant, (nodes_listAdd_leaf (by simpa using hn) (by simpa using hp)).mem_iff,
    List.mem_cons]

omit hn hp hd in
/-- The tree below a dentry that the new one does not hang under. -/
theorem keys_subdirs_plant {j : Ptr} (hj : j ≠ p) (hjd : j ≠ d.ptr)
    (hk : p ∉ Forest.keys Dentry.ptr (t.subdirs j)) :
    Forest.keys Dentry.ptr ((t.plant p d).subdirs j) = Forest.keys Dentry.ptr (t.subdirs j) := by
  have hkeys : Forest.keys Dentry.ptr ((t.dget p).subdirs j) =
      Forest.keys Dentry.ptr (t.subdirs j) := by
    rw [dget, subdirs_update keeps_get]
    exact ptrs_update keeps_get
  rw [← hkeys] at hk ⊢
  exact congrArg _ (Forest.sub_graft_of_not_mem hj hjd hk)

/-- The new dentry has no children. -/
theorem kids_plant_self : (t.plant p d).kids d.ptr = 0 := by
  refine List.countP_eq_zero.mpr fun x hx => ?_
  rw [decide_eq_true_eq]
  intro hxd
  have hx' : (some d.ptr, x.2) ∈ (t.plant p d).nodes := by rw [← hxd]; exact hx
  rcases (mem_nodes_plant hn hp).mp hx' with heq | hmem
  · cases heq
    exact hd hp
  · exact hd (by simpa using parent_mem_ptrs hmem)

/-- Giving the new dentry up leaves the tree as it was. -/
theorem dput_plant_last (hk : d.ptr = k) (hx : t.node? p = some x) (hc0 : x.2.dCount ≠ 0)
    (hc : d.dCount = 1) (hop : d.dOp = true ∨ d.dUnhashed = true) : (t.plant p d).dput k = t := by
  subst hk
  rw [dput_last (node?_plant_self hn hp hd rfl) hc hop, plant,
    unlinkChild_listAdd_leaf (by simpa using hd), dput_dget hx hc0]

/-- Dropping one of several references to the new dentry. -/
theorem dput_plant (hk : d.ptr = k) (hc : d.dCount ≠ 1) :
    (t.plant p d).dput k = t.plant p d.dec := by
  rw [dput_of_ne_one (node?_plant_self hn hp hd hk) hc, update_plant hk keeps_dec hd]

/-- Dropping a reference that was taken before the leaf was planted. -/
theorem dput_plant_dget (hx : t.node? k = some x) (hc : 1 ≤ x.2.dCount) :
    ((t.dget k).plant p d).dput k = t.plant p d := by
  have hkd : k ≠ d.ptr := fun heq => hd (heq ▸ mem_ptrs_of_node? hx)
  have hnode : (t.plant p d).node? k =
      some (x.1, if x.2.ptr = p then x.2.get else x.2) := by
    rw [node?_plant_ne hn hp hd hkd, dget, node?_update keeps_get, hx]
    rfl
  rw [plant_dget hkd]
  refine dput_dget hnode ?_
  by_cases hxp : x.2.ptr = p <;> simp only [hxp, if_true, if_false, Dentry.get] <;> omega

end Planted

/-- A planted dentry is pinned by the reference it comes with. -/
theorem Sound.plant (h : t.Sound root ext pin) (hp : p ∈ t.ptrs) (hd : d.ptr ∉ t.ptrs)
    (hl : d.dOp = true) (hc : d.dCount = 1) (he : ext d.ptr = 0) :
    (t.plant p d).Sound root ext (Function.update pin d.ptr 1) :=
  (h.dget hp).listAdd_leaf (by simpa using hp) (by simpa using hd) hl hc he

end Dcache

end Wjfs
