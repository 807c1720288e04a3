import Wjfs.Dcache.Plant

/-!
# Wjfs.Dcache.Bare

The dentries of a tree without their counts.

Once all references are accounted for, the counts say nothing that the rest
does not say.  What a call does to the tree is then described by a few lines:
a bare dentry more, a bare dentry less, or one at another place.
-/

namespace Wjfs

namespace Dcache

variable {t t' : Dcache} {root k p q : Ptr} {ext ext' pin pin' : Ptr → Nat} {d e : Dentry}
  {f : Dentry → Dentry} {x : Option Ptr × Dentry}

/-- A node without its count. -/
def strip (x : Option Ptr × Dentry) : Option Ptr × Dentry := (x.1, x.2.withCount 0)

/-- The nodes of a tree without their counts. -/
def bare (t : Dcache) : List (Option Ptr × Dentry) := t.nodes.map strip

theorem map_ptr_bare (t : Dcache) : t.bare.map (fun x => x.2.ptr) = t.ptrs := by
  rw [bare, List.map_map]
  exact (Forest.map_key_flat none t : t.nodes.map (fun x => Dentry.ptr x.2) = _)

theorem mem_bare_of_mem (hx : x ∈ t.nodes) : strip x ∈ t.bare := List.mem_map_of_mem hx

theorem exists_of_mem_bare (hx : x ∈ t.bare) : ∃ y ∈ t.nodes, strip y = x := List.mem_map.mp hx

theorem has_iff_mem_bare : t.Has x ↔ strip x ∈ t.bare := by
  constructor
  · rintro ⟨c, hc⟩
    exact mem_bare_of_mem (x := (x.1, x.2.withCount c)) hc
  · intro hx
    obtain ⟨y, hy, hyx⟩ := exists_of_mem_bare hx
    refine ⟨y.2.dCount, ?_⟩
    have h1 : y.1 = x.1 := congrArg (fun z => z.1) hyx
    have h2 : y.2.withCount 0 = x.2.withCount 0 := congrArg (fun z => z.2) hyx
    have h3 : x.2.withCount y.2.dCount = y.2 := by
      have := congrArg (fun z : Dentry => z.withCount y.2.dCount) h2
      simpa using this.symm
    rw [← h1, h3]
    exact hy

theorem kids_eq_countP_bare : t.kids k = t.bare.countP fun x => x.1 = some k := by
  rw [bare, List.countP_map]
  rfl

theorem bare_update (hf : ∀ d, ∃ c, f d = d.withCount c) : (t.update k f).bare = t.bare := by
  have hk : Keeps f := fun d => by obtain ⟨c, hc⟩ := hf d; rw [hc]; rfl
  rw [bare, nodes_update hk, List.map_map]
  refine List.map_congr_left fun x _ => ?_
  obtain ⟨c, hc⟩ := hf x.2
  by_cases h : x.2.ptr = k <;> simp [strip, h, hc]

theorem bare_dget : (t.dget k).bare = t.bare := bare_update fun _ => ⟨_, rfl⟩

theorem bare_listAdd_leaf (hn : t.ptrs.Nodup) (hp : p ∈ t.ptrs) :
    (t.listAdd p (leaf d)).bare.Perm (strip (some p, d) :: t.bare) :=
  (nodes_listAdd_leaf hn hp).map strip

theorem bare_plant (hn : t.ptrs.Nodup) (hp : p ∈ t.ptrs) :
    (t.plant p d).bare.Perm (strip (some p, d) :: t.bare) := by
  have h := bare_listAdd_leaf (t := t.dget p) (d := d) (by simpa using hn) (by simpa using hp)
  rwa [bare_dget] at h

/-- A leaf that is taken out. -/
theorem nodes_perm_unlinkChild (hn : t.ptrs.Nodup) (hx : (some p, d) ∈ t.nodes)
    (h0 : t.kids d.ptr = 0) : t.nodes.Perm ((some p, d) :: (t.unlinkChild d.ptr).nodes) := by
  have hperm := Forest.flat_erase hn hx
  have hs : Forest.sub Dentry.ptr d.ptr t = .nil := subdirs_eq_nil hn h0
  rw [hs] at hperm
  exact hperm

theorem bare_unlinkChild (hn : t.ptrs.Nodup) (hx : (some p, d) ∈ t.nodes)
    (h0 : t.kids d.ptr = 0) : t.bare.Perm (strip (some p, d) :: (t.unlinkChild d.ptr).bare) :=
  (nodes_perm_unlinkChild hn hx h0).map strip

/-- A reference that is not the last one. -/
theorem bare_dput_of_ne_one (hx : t.node? k = some x) (hc : x.2.dCount ≠ 1) :
    (t.dput k).bare = t.bare := by
  rw [dput_of_ne_one hx hc]
  exact bare_update fun _ => ⟨_, rfl⟩

/-- Dropping a reference to a dentry that is held otherwise takes nothing
out. -/
theorem Sound.bare_dput (h : t.Sound root (bump ext k) pin) (hk : k ∈ t.ptrs)
    (hp : 1 ≤ ext k + pin k) : (t.dput k).bare = t.bare := by
  obtain ⟨x, hxm, hxk⟩ := Forest.exists_mem_flat hk none
  have hx : t.node? k = some x := (node?_eq_some_iff h.nodup).mpr ⟨hxm, hxk⟩
  refine bare_dput_of_ne_one hx ?_
  have hcount := h.count x hxm
  rw [hxk] at hcount
  simp only [bump, if_true] at hcount
  omega

end Dcache

end Wjfs
