import Wjfs.Dcache

/-!
# Wjfs.Dcache.Laws

How the primitives of the dentry tree act: which dentry is where afterwards,
and which of them undo each other.

Later modules reason about the tree only through these laws.
-/

namespace Wjfs

namespace Dcache

variable {t : Dcache} {j k p : Ptr} {d : Dentry} {f g : Dentry → Dentry}

/-- The addresses in use. -/
def ptrs (t : Dcache) : List Ptr := Forest.keys Dentry.ptr t

/-- The functions that `update` is used with keep the address. -/
def Keeps (f : Dentry → Dentry) : Prop := ∀ d, (f d).ptr = d.ptr

@[simp] theorem keeps_get : Keeps Dentry.get := fun _ => rfl
@[simp] theorem keeps_dec : Keeps Dentry.dec := fun _ => rfl
@[simp] theorem keeps_drop : Keeps Dentry.drop := fun _ => rfl
@[simp] theorem keeps_rehash : Keeps Dentry.rehash := fun _ => rfl
@[simp] theorem keeps_added : Keeps Dentry.added := fun _ => rfl
@[simp] theorem keeps_instantiate (i : Ptr) : Keeps (Dentry.instantiate i) := fun _ => rfl
@[simp] theorem keeps_iput : Keeps Dentry.iput := fun _ => rfl

theorem Keeps.comp (hf : Keeps f) (hg : Keeps g) : Keeps fun d => g (f d) :=
  fun d => (hg _).trans (hf d)

theorem Keeps.ite {c : Dentry → Prop} [DecidablePred c] (hf : Keeps f) (hg : Keeps g) :
    Keeps fun d => if c d then f d else g d := by
  intro d
  by_cases h : c d
  · simp [h, hf d]
  · simp [h, hg d]

/-! ## finding dentries -/

theorem node?_eq_some_iff (hn : t.ptrs.Nodup) {x : Option Ptr × Dentry} :
    t.node? k = some x ↔ x ∈ t.nodes ∧ x.2.ptr = k := Forest.node?_eq_some_iff hn

theorem node?_of_mem (hn : t.ptrs.Nodup) {x : Option Ptr × Dentry} (hx : x ∈ t.nodes) :
    t.node? x.2.ptr = some x := (node?_eq_some_iff hn).mpr ⟨hx, rfl⟩

theorem node?_eq_none_iff : t.node? k = none ↔ k ∉ t.ptrs := Forest.node?_eq_none_iff

theorem mem_ptrs_of_node? {x : Option Ptr × Dentry} (h : t.node? k = some x) : k ∈ t.ptrs := by
  by_contra hk
  rw [node?_eq_none_iff.mpr hk] at h
  cases h

theorem ptr_of_node? {x : Option Ptr × Dentry} (h : t.node? k = some x) : x.2.ptr = k := by
  simpa using List.find?_some h

theorem mem_nodes_of_node? {x : Option Ptr × Dentry} (h : t.node? k = some x) : x ∈ t.nodes :=
  List.mem_of_find?_eq_some h

theorem mem_ptrs_of_mem {x : Option Ptr × Dentry} (hx : x ∈ t.nodes) : x.2.ptr ∈ t.ptrs :=
  Forest.mem_keys_of_mem_flat hx

theorem parent_mem_ptrs {d : Dentry} (hx : (some p, d) ∈ t.nodes) : p ∈ t.ptrs := by
  rcases Forest.parent_of_mem_flat hx with h | ⟨k, hk, h⟩
  · cases h
  · rw [Option.some.inj h]
    exact hk

theorem parent_ne_ptr (hn : t.ptrs.Nodup) {d : Dentry} (hx : (some p, d) ∈ t.nodes) :
    p ≠ d.ptr := by
  have := Forest.parent_ne_key hn (p := none) (by simp) hx
  simpa using this

theorem mem_subdirs_iff (hn : t.ptrs.Nodup) : d ∈ (t.subdirs p).roots ↔ (some p, d) ∈ t.nodes :=
  Forest.mem_roots_sub hn

/-! ## update -/

theorem nodes_update (hf : Keeps f) :
    (t.update k f).nodes = t.nodes.map fun x => (x.1, if x.2.ptr = k then f x.2 else x.2) :=
  Forest.flat_modify hf k none t

@[simp] theorem ptrs_update (hf : Keeps f) : (t.update k f).ptrs = t.ptrs :=
  Forest.keys_modify hf k t

theorem node?_update (hf : Keeps f) :
    (t.update k f).node? j =
      (t.node? j).map fun x => (x.1, if x.2.ptr = k then f x.2 else x.2) := by
  change ((t.update k f).nodes).find? _ = _
  rw [nodes_update hf, List.find?_map]
  congr 1
  change t.nodes.find? _ = t.nodes.find? _
  congr 1
  funext x
  by_cases h : x.2.ptr = k
  · simp [h, hf x.2]
  · simp [h]

theorem node?_update_self (hf : Keeps f) {x : Option Ptr × Dentry} (h : t.node? k = some x) :
    (t.update k f).node? k = some (x.1, f x.2) := by
  rw [node?_update hf, h, Option.map_some, if_pos (ptr_of_node? h)]

theorem node?_update_ne (hf : Keeps f) (hjk : j ≠ k) :
    (t.update k f).node? j = t.node? j := by
  rw [node?_update hf]
  cases h : t.node? j with
  | none => rfl
  | some x => rw [Option.map_some, if_neg (by rw [ptr_of_node? h]; exact hjk)]

theorem update_update (hf : Keeps f) : (t.update k f).update k g = t.update k fun d => g (f d) := by
  unfold update Forest.modify
  rw [Forest.map_map]
  congr 1
  funext d
  by_cases h : d.ptr = k
  · simp [h, hf d]
  · simp [h]

theorem update_comm (hf : Keeps f) (hg : Keeps g) (hjk : j ≠ k) :
    (t.update k f).update j g = (t.update j g).update k f := by
  unfold update Forest.modify
  rw [Forest.map_map, Forest.map_map]
  congr 1
  funext d
  by_cases h : d.ptr = k
  · simp [h, hf d, Ne.symm hjk]
  · by_cases h' : d.ptr = j
    · simp [h', hg d, hjk]
    · simp [h, h']

theorem update_of_not_mem (h : k ∉ t.ptrs) : t.update k f = t := Forest.modify_of_not_mem h

/-- An update counts only through what it does to the dentry that is there. -/
theorem update_congr (hn : t.ptrs.Nodup) {x : Option Ptr × Dentry} (h : t.node? k = some x)
    (hfg : f x.2 = g x.2) : t.update k f = t.update k g := by
  refine Forest.map_congr Dentry.ptr (p := none) fun y hy => ?_
  by_cases hk : y.2.ptr = k
  · have hyx : y = x := by
      have := node?_of_mem hn hy
      rw [hk, h] at this
      exact (Option.some.inj this).symm
    rw [if_pos hk, if_pos hk, hyx, hfg]
  · rw [if_neg hk, if_neg hk]

theorem update_id : t.update k (fun d => d) = t := by
  unfold update Forest.modify
  simp only [ite_self, Forest.map_id]

/-- An update that changes nothing. -/
theorem update_eq_self (hn : t.ptrs.Nodup) {x : Option Ptr × Dentry} (h : t.node? k = some x)
    (hf : f x.2 = x.2) : t.update k f = t :=
  (update_congr hn h (g := fun d => d) hf).trans update_id

@[simp] theorem update_dec_get : (t.update k Dentry.get).update k Dentry.dec = t := by
  rw [update_update keeps_get]
  simp only [Dentry.dec_get, update_id]

theorem subdirs_update (hf : Keeps f) : (t.update k f).subdirs j = (t.subdirs j).update k f := by
  refine (Forest.map_sub (fun d => ?_) j t).symm
  by_cases h : d.ptr = k
  · simp [h, hf d]
  · simp [h]

theorem roots_update : (t.update k f).roots = t.roots.map fun d => if d.ptr = k then f d else d :=
  Forest.roots_map _ t

/-- Updates that keep name and hash state do not change what a lookup finds. -/
theorem dLookup_update (hf : Keeps f)
    (hs : ∀ d, (f d).dUnhashed = d.dUnhashed ∧ (f d).dName = d.dName) {name : Bytes} :
    (t.update k f).dLookup p name =
      (t.dLookup p name).map fun d => if d.ptr = k then f d else d := by
  unfold dLookup
  rw [subdirs_update hf, roots_update, List.find?_map]
  congr 2
  funext d
  by_cases h : d.ptr = k
  · simp [h, hs d]
  · simp [h]

theorem dLookup_some {name : Bytes} (h : t.dLookup p name = some d) :
    d ∈ (t.subdirs p).roots ∧ d.dUnhashed = false ∧ d.dName = name := by
  have hm := List.mem_of_find?_eq_some h
  have hp := List.find?_some h
  simp only [Bool.and_eq_true, Bool.not_eq_true', beq_iff_eq] at hp
  exact ⟨hm, hp⟩

theorem mem_nodes_of_dLookup (hn : t.ptrs.Nodup) {name : Bytes} (h : t.dLookup p name = some d) :
    (some p, d) ∈ t.nodes := (mem_subdirs_iff hn).mp (dLookup_some h).1

/-- Updates that keep inode and hash state do not change what is empty. -/
theorem simpleEmpty_update (hf : Keeps f) (hs : ∀ d, (f d).positive = d.positive) :
    (t.update k f).simpleEmpty j = t.simpleEmpty j := by
  unfold simpleEmpty
  rw [subdirs_update hf, roots_update, List.all_map]
  congr 1
  funext d
  by_cases h : d.ptr = k
  · simp [h, hs]
  · simp [h]

/-! ## adding and taking out a leaf -/

/-- The number of children of a dentry. -/
def kids (t : Dcache) (k : Ptr) : Nat := t.nodes.countP fun x => x.1 = some k

theorem kids_eq_length (hn : t.ptrs.Nodup) : t.kids k = (t.subdirs k).roots.length := by
  unfold subdirs
  rw [Forest.roots_sub hn (p := none) (by simp), List.length_map, kids, nodes,
    List.countP_eq_length_filter]

theorem subdirs_eq_nil (hn : t.ptrs.Nodup) (h0 : t.kids k = 0) : t.subdirs k = .nil := by
  rw [kids_eq_length hn] at h0
  cases hs : t.subdirs k with
  | nil => rfl
  | cons a s n => rw [hs] at h0; simp [Forest.roots] at h0

theorem kids_pos_of_mem {d : Dentry} (h : (some k, d) ∈ t.nodes) : 0 < t.kids k :=
  List.countP_pos_iff.mpr ⟨_, h, by simp⟩

@[simp] theorem kids_update (hf : Keeps f) : (t.update k f).kids j = t.kids j := by
  rw [kids, nodes_update hf, List.countP_map]
  rfl

theorem nodes_listAdd_leaf (hn : t.ptrs.Nodup) (hp : p ∈ t.ptrs) :
    (t.listAdd p (leaf d)).nodes.Perm ((some p, d) :: t.nodes) :=
  Forest.flat_graft hn hp none

theorem ptrs_listAdd_leaf (hn : t.ptrs.Nodup) (hp : p ∈ t.ptrs) :
    (t.listAdd p (leaf d)).ptrs.Perm (d.ptr :: t.ptrs) := Forest.keys_graft hn hp

theorem nodup_listAdd_leaf (hn : t.ptrs.Nodup) (hp : p ∈ t.ptrs) (hd : d.ptr ∉ t.ptrs) :
    (t.listAdd p (leaf d)).ptrs.Nodup :=
  (ptrs_listAdd_leaf hn hp).nodup_iff.mpr (List.nodup_cons.mpr ⟨hd, hn⟩)

theorem kids_listAdd_leaf (hn : t.ptrs.Nodup) (hp : p ∈ t.ptrs) :
    (t.listAdd p (leaf d)).kids k = t.kids k + if p = k then 1 else 0 := by
  rw [kids, (nodes_listAdd_leaf hn hp).countP_eq, List.countP_cons]
  simp [kids]

theorem node?_listAdd_leaf_self (hn : t.ptrs.Nodup) (hp : p ∈ t.ptrs) (hd : d.ptr ∉ t.ptrs) :
    (t.listAdd p (leaf d)).node? d.ptr = some (some p, d) := by
  refine node?_of_mem (x := (some p, d)) (nodup_listAdd_leaf hn hp hd) ?_
  exact (nodes_listAdd_leaf hn hp).mem_iff.mpr List.mem_cons_self

theorem node?_listAdd_leaf_ne (hn : t.ptrs.Nodup) (hp : p ∈ t.ptrs) (hd : d.ptr ∉ t.ptrs)
    (hk : k ≠ d.ptr) : (t.listAdd p (leaf d)).node? k = t.node? k := by
  cases h : t.node? k with
  | none =>
      rw [node?_eq_none_iff] at h ⊢
      rw [(ptrs_listAdd_leaf hn hp).mem_iff]
      simp [hk, h]
  | some x =>
      rw [node?_eq_some_iff (nodup_listAdd_leaf hn hp hd), (nodes_listAdd_leaf hn hp).mem_iff]
      obtain ⟨hx, hxk⟩ := (node?_eq_some_iff hn).mp h
      exact ⟨List.mem_cons_of_mem _ hx, hxk⟩

/-- Updating a leaf that was just added. -/
theorem update_listAdd_leaf (hf : Keeps f) (hd : d.ptr ∉ t.ptrs) :
    (t.listAdd p (leaf d)).update d.ptr f = t.listAdd p (leaf (f d)) := by
  unfold update Forest.modify listAdd
  rw [Forest.map_graft (fun e => by by_cases h : e.ptr = d.ptr <;> simp [h, hf e])]
  have ht := update_of_not_mem (f := f) hd
  unfold update Forest.modify at ht
  rw [ht]
  simp [leaf, Forest.map]

/-- Updating another dentry than the leaf that was just added. -/
theorem update_listAdd_leaf_ne (hf : Keeps f) (hk : k ≠ d.ptr) :
    (t.listAdd p (leaf d)).update k f = (t.update k f).listAdd p (leaf d) := by
  unfold update Forest.modify listAdd
  rw [Forest.map_graft (fun e => by by_cases h : e.ptr = k <;> simp [h, hf e])]
  simp [leaf, Forest.map, Ne.symm hk]

theorem unlinkChild_listAdd_leaf (hd : d.ptr ∉ t.ptrs) :
    (t.listAdd p (leaf d)).unlinkChild d.ptr = t := Forest.erase_graft hd

theorem nodup_unlinkChild (hn : t.ptrs.Nodup) : (t.unlinkChild k).ptrs.Nodup :=
  Forest.nodup_keys_erase hn

theorem nodes_unlinkChild (hn : t.ptrs.Nodup) (h0 : t.kids k = 0) :
    (t.unlinkChild k).nodes = t.nodes.filter fun x => x.2.ptr ≠ k :=
  Forest.flat_erase_leaf hn (subdirs_eq_nil hn h0) none

theorem mem_nodes_unlinkChild (hn : t.ptrs.Nodup) (h0 : t.kids k = 0)
    {x : Option Ptr × Dentry} :
    x ∈ (t.unlinkChild k).nodes ↔ x ∈ t.nodes ∧ x.2.ptr ≠ k := by
  rw [nodes_unlinkChild hn h0]
  simp

/-- The parent of a leaf that is taken out has one child less. -/
theorem kids_unlinkChild (hn : t.ptrs.Nodup) (hx : (some p, d) ∈ t.nodes)
    (h0 : t.kids d.ptr = 0) :
    t.kids k = (t.unlinkChild d.ptr).kids k + if p = k then 1 else 0 := by
  have hperm := Forest.flat_erase hn hx
  have hs : Forest.sub Dentry.ptr d.ptr t = .nil := subdirs_eq_nil hn h0
  simp only [hs, Forest.flat, List.nil_append] at hperm
  change List.countP _ t.nodes = _
  rw [nodes, hperm.countP_eq, List.countP_cons]
  simp [kids, nodes, unlinkChild]

theorem update_unlinkChild (hf : Keeps f) :
    (t.unlinkChild j).update k f = (t.update k f).unlinkChild j := by
  refine Forest.map_erase (fun d => ?_) j t
  by_cases h : d.ptr = k
  · simp [h, hf d]
  · simp [h]

/-! ## dput -/

theorem size_unlinkChild_lt (h : k ∈ t.ptrs) :
    Forest.size (t.unlinkChild k) < Forest.size t := Forest.size_erase_lt h

/-- Any two amounts of fuel that cover the tree give the same result. -/
theorem dputLoop_congr {n m : Nat} (hn : Forest.size t ≤ n) (hm : Forest.size t ≤ m) :
    dputLoop n t k = dputLoop m t k := by
  induction n generalizing t k m with
  | zero =>
      cases t with
      | nil => cases m <;> rfl
      | cons a s r => simp [Forest.size] at hn
  | succ n ih =>
      cases m with
      | zero =>
          cases t with
          | nil => rfl
          | cons a s r => simp [Forest.size] at hm
      | succ m =>
          unfold dputLoop
          cases hk : t.node? k with
          | none => rfl
          | some x =>
              obtain ⟨parent, d⟩ := x
              have hlt := size_unlinkChild_lt (mem_ptrs_of_node? hk)
              cases parent with
              | none => rfl
              | some p => simp only [ih (m := m) (t := t.unlinkChild k) (by omega) (by omega)]

/-- `dput` of a dentry with other references only counts down. -/
theorem dput_of_ne_one {x : Option Ptr × Dentry} (h : t.node? k = some x)
    (hc : x.2.dCount ≠ 1) : t.dput k = t.update k Dentry.dec := by
  have hlt := size_unlinkChild_lt (mem_ptrs_of_node? h)
  obtain ⟨n, hs⟩ := Nat.exists_eq_succ_of_ne_zero (n := Forest.size t) (by omega)
  obtain ⟨parent, d⟩ := x
  have hne : d.dCount - 1 ≠ 0 := by simp only at hc; omega
  unfold dput
  rw [hs, dputLoop, h]
  simp only [if_pos hne]

/-- `dput` of the last reference kills a dentry that `d_delete` gives up or
that is unhashed, and drops a reference to its parent. -/
theorem dput_last {d : Dentry} (h : t.node? k = some (some p, d)) (hc : d.dCount = 1)
    (hk : d.dOp = true ∨ d.dUnhashed = true) : t.dput k = (t.unlinkChild k).dput p := by
  have hlt := size_unlinkChild_lt (mem_ptrs_of_node? h)
  obtain ⟨n, hs⟩ := Nat.exists_eq_succ_of_ne_zero (n := Forest.size t) (by omega)
  have hz : ¬ d.dCount - 1 ≠ 0 := by omega
  have hor : (d.dOp || d.dUnhashed) = true := by simpa using hk
  change dputLoop (Forest.size t) t k = dputLoop _ _ _
  rw [hs, dputLoop, h]
  simp only [if_neg hz, if_pos hor]
  exact dputLoop_congr (by omega) (Nat.le_refl _)

/-- A reference taken and dropped again, while another one is there. -/
theorem dput_dget {x : Option Ptr × Dentry} (h : t.node? k = some x) (hc : x.2.dCount ≠ 0) :
    (t.dget k).dput k = t := by
  have h1 := node?_update_self (f := Dentry.get) keeps_get h
  rw [dget, dput_of_ne_one h1 (by simp only [Dentry.get]; omega), update_dec_get]

/-- As `dput_dget`, with an update of another dentry in between. -/
theorem dput_update_dget (hf : Keeps f) (hjk : j ≠ k) {x : Option Ptr × Dentry}
    (h : t.node? j = some x) (hc : x.2.dCount ≠ 0) :
    ((t.dget j).update k f).dput j = t.update k f := by
  have hx : (t.update k f).node? j = some x := (node?_update_ne hf hjk).trans h
  rw [dget, update_comm keeps_get hf (Ne.symm hjk)]
  exact dput_dget hx hc

/-! ## the removal primitives on a dentry with several users -/

/-- `d_delete` of a dentry with another user unhashes it. -/
theorem dDelete_of_ne_one (hn : t.ptrs.Nodup) {x : Option Ptr × Dentry} (h : t.node? k = some x)
    (hc : x.2.dCount ≠ 1) : t.dDelete k = t.update k Dentry.drop :=
  update_congr hn h (if_neg hc)

/-- `dentry_unhash` of a dentry that is referenced elsewhere is a `dget`. -/
theorem dentryUnhash_of_ne_one (hn : t.ptrs.Nodup) {x : Option Ptr × Dentry}
    (h : t.node? k = some x) (hc : x.2.dCount ≠ 1) : t.dentryUnhash k = t.dget k := by
  have h1 := node?_update_self (f := Dentry.get) keeps_get h
  have hne : ¬ x.2.dCount + 1 = 2 := by omega
  exact update_eq_self (by simpa [dget] using hn) h1 (if_neg hne)

/-- Unhashing while a reference is held, and dropping the reference. -/
theorem dput_drop_dget {x : Option Ptr × Dentry} (h : t.node? k = some x)
    (hc : x.2.dCount ≠ 0) :
    ((t.dget k).update k Dentry.drop).dput k = t.update k Dentry.drop := by
  have h1 := node?_update_self (f := Dentry.get) keeps_get h
  have h2 := node?_update_self (f := Dentry.drop) keeps_drop h1
  rw [dget, dput_of_ne_one h2 (by simp only [Dentry.drop, Dentry.get]; omega),
    update_update keeps_get, update_update (Keeps.comp keeps_get keeps_drop)]
  congr 1
  funext d
  simp [Dentry.dec, Dentry.drop, Dentry.get]

end Dcache

end Wjfs
