import Mathlib.Data.List.Nodup
import Mathlib.Data.List.Perm.Basic

/-!
# Wjfs.Forest

Ordered forests in first-child/next-sibling form, with keyed nodes.

A forest is a sibling list: `cons a sub next` is the node `a`, the forest
`sub` of its own children and the siblings `next` that follow it.  Recursion
over such a list is plain structural recursion on one inductive type, so
walkers that descend into `sub` and go on with `next` need no fuel and no
nested induction.

Every operation comes with its effect on `flat`, the list of all nodes
paired with the key of their parent.  Accounting (who is in the forest, who
is whose child, how many children a node has) is done on that list, up to
permutation; only the walkers look at the shape itself.
-/

universe u v

/-- A sibling list of trees: a node, its children, the siblings after it. -/
inductive Forest (α : Type u) where
  | nil
  | cons (a : α) (sub next : Forest α)
deriving DecidableEq, Repr

namespace Forest

variable {α : Type u} {β : Type v} {κ : Type} (key : α → κ)

/-! ## the operations -/

/-- Apply a function to every node. -/
def map (f : α → β) : Forest α → Forest β
  | nil => nil
  | cons a sub next => cons (f a) (map f sub) (map f next)

/-- The nodes of the sibling list itself. -/
def roots : Forest α → List α
  | nil => []
  | cons a _ next => a :: roots next

/-- One sibling list in front of another. -/
def append : Forest α → Forest α → Forest α
  | nil, g => g
  | cons a sub next, g => cons a sub (append next g)

/-- Number of nodes. -/
def size : Forest α → Nat
  | nil => 0
  | cons _ sub next => size sub + size next + 1

/-- All nodes, each with the key of its parent; `p` is the parent of the
sibling list (`none` for a root list). -/
def flat : Option κ → Forest α → List (Option κ × α)
  | _, nil => []
  | p, cons a sub next => (p, a) :: (flat (some (key a)) sub ++ flat p next)

/-- All nodes in post-order, each with its ancestors, nearest first; `up` are
the ancestors of the sibling list. -/
def postorder (up : List α) : Forest α → List (List α × α)
  | nil => []
  | cons a sub next => postorder (a :: up) sub ++ (up, a) :: postorder up next

/-- The keys of all nodes. -/
def keys : Forest α → List κ
  | nil => []
  | cons a sub next => key a :: (keys sub ++ keys next)

variable {key}

/-! ## keys -/

@[simp] theorem map_key_flat (p : Option κ) (t : Forest α) :
    (t.flat key p).map (fun x => key x.2) = t.keys key := by
  induction t generalizing p with
  | nil => rfl
  | cons a s n ihs ihn => simp [flat, keys, ihs, ihn]

theorem length_flat (p : Option κ) (t : Forest α) : (t.flat key p).length = t.size := by
  induction t generalizing p with
  | nil => rfl
  | cons a s n ihs ihn => simp [flat, size, ihs, ihn]

theorem length_keys (key : α → κ) (t : Forest α) : (t.keys key).length = t.size := by
  rw [← map_key_flat none t, List.length_map, length_flat]

theorem mem_keys_of_mem_flat {p : Option κ} {t : Forest α} {x : Option κ × α}
    (h : x ∈ t.flat key p) : key x.2 ∈ t.keys key := by
  rw [← map_key_flat p t]
  exact List.mem_map.mpr ⟨x, h, rfl⟩

theorem exists_mem_flat {k : κ} {t : Forest α} (h : k ∈ t.keys key) (p : Option κ) :
    ∃ x ∈ t.flat key p, key x.2 = k := by
  rw [← map_key_flat p t] at h
  exact List.mem_map.mp h

/-- Distinct keys make the node with a key unique. -/
theorem eq_of_mem_flat {p : Option κ} {t : Forest α} (hn : (t.keys key).Nodup)
    {x y : Option κ × α} (hx : x ∈ t.flat key p) (hy : y ∈ t.flat key p)
    (h : key x.2 = key y.2) : x = y := by
  rw [← map_key_flat p t] at hn
  exact List.inj_on_of_nodup_map hn hx hy h

theorem mem_keys_of_mem_roots {a : α} {t : Forest α} (h : a ∈ t.roots) : key a ∈ t.keys key := by
  induction t with
  | nil => cases h
  | cons b s n _ ihn =>
      rcases List.mem_cons.mp h with rfl | h
      · exact List.mem_cons_self
      · exact List.mem_cons_of_mem _ (List.mem_append_right _ (ihn h))

/-- The parent of a node is a node, or the parent of the whole list. -/
theorem parent_of_mem_flat {p : Option κ} {t : Forest α} {x : Option κ × α}
    (hx : x ∈ t.flat key p) : x.1 = p ∨ ∃ k ∈ t.keys key, x.1 = some k := by
  induction t generalizing p with
  | nil => cases hx
  | cons a s n ihs ihn =>
      simp only [flat, List.mem_cons, List.mem_append] at hx
      simp only [keys, List.mem_cons, List.mem_append]
      rcases hx with rfl | hx | hx
      · exact .inl rfl
      · rcases ihs hx with h | ⟨k, hk, h⟩
        · exact .inr ⟨key a, .inl rfl, h⟩
        · exact .inr ⟨k, .inr (.inl hk), h⟩
      · rcases ihn hx with h | ⟨k, hk, h⟩
        · exact .inl h
        · exact .inr ⟨k, .inr (.inr hk), h⟩

/-- No node is its own parent. -/
theorem parent_ne_key {p : Option κ} {t : Forest α} (hn : (t.keys key).Nodup)
    (hp : ∀ k, p = some k → k ∉ t.keys key) {x : Option κ × α} (hx : x ∈ t.flat key p) :
    x.1 ≠ some (key x.2) := by
  induction t generalizing p with
  | nil => cases hx
  | cons a s n ihs ihn =>
      simp only [keys, List.nodup_cons, List.mem_append, not_or, List.nodup_append] at hn
      obtain ⟨⟨has, han⟩, hns, hnn, -⟩ := hn
      simp only [keys, List.mem_cons, List.mem_append, not_or] at hp
      simp only [flat, List.mem_cons, List.mem_append] at hx
      rcases hx with rfl | hx | hx
      · intro h
        exact (hp _ h).1 rfl
      · refine ihs hns (fun k hk => ?_) hx
        rw [← Option.some.inj hk]
        exact has
      · exact ihn hnn (fun k hk => (hp k hk).2.2) hx

/-- A set that leads from any of its members but `d` to the member's parent
leads from a sibling list to `d` or to the parent of the list. -/
theorem climb {D : κ → Prop} {d p : κ} {t : Forest α}
    (hD : ∀ x ∈ t.flat key (some p), D (key x.2) → key x.2 = d ∨ ∀ q, x.1 = some q → D q)
    {k : κ} (hk : k ∈ t.keys key) (hDk : D k) : d ∈ t.keys key ∨ D p := by
  induction t generalizing p with
  | nil => cases hk
  | cons a s n ihs ihn =>
      have ha : D (key a) → d ∈ (cons a s n).keys key ∨ D p := by
        intro h
        rcases hD (some p, a) (by simp [flat]) h with hd | hp
        · exact .inl (by simp [keys, ← hd])
        · exact .inr (hp p rfl)
      simp only [keys, List.mem_cons, List.mem_append] at hk
      rcases hk with rfl | hk | hk
      · exact ha hDk
      · rcases ihs (p := key a) (fun x hx => hD x (by simp [flat, hx])) hk with h | h
        · exact .inl (by simp [keys, h])
        · exact ha h
      · rcases ihn (p := p) (fun x hx => hD x (by simp [flat, hx])) hk with h | h
        · exact .inl (by simp [keys, h])
        · exact .inr h

/-- What holds of the nodes of the sibling list and is handed down from a node to
its children holds of every node. -/
theorem flat_induction {S : List (Option κ × α)} {P : Option κ × α → Prop}
    (hchild : ∀ y ∈ S, P y → ∀ x ∈ S, x.1 = some (key y.2) → P x) {t : Forest α} {p : Option κ}
    (hsub : t.flat key p ⊆ S) (htop : ∀ x ∈ S, x.1 = p → P x) : ∀ x ∈ t.flat key p, P x := by
  induction t generalizing p with
  | nil => simp [flat]
  | cons a s n ihs ihn =>
      rw [flat, List.cons_subset, List.append_subset] at hsub
      obtain ⟨ha, hs, hn⟩ := hsub
      intro x hx
      rw [flat, List.mem_cons, List.mem_append] at hx
      rcases hx with rfl | hx | hx
      · exact htop _ ha rfl
      · exact ihs hs (hchild _ ha (htop _ ha rfl)) x hx
      · exact ihn hn htop x hx

/-! ## append, map -/

@[simp] theorem append_nil (t : Forest α) : t.append nil = t := by
  induction t with
  | nil => rfl
  | cons a s n _ ihn => simp [append, ihn]

theorem flat_append (p : Option κ) (t g : Forest α) :
    (t.append g).flat key p = t.flat key p ++ g.flat key p := by
  induction t with
  | nil => rfl
  | cons a s n _ ihn => simp [append, flat, ihn]

theorem roots_append (t g : Forest α) : (t.append g).roots = t.roots ++ g.roots := by
  induction t with
  | nil => rfl
  | cons a s n _ ihn => simp [append, roots, ihn]

theorem keys_append (t g : Forest α) : (t.append g).keys key = t.keys key ++ g.keys key := by
  induction t with
  | nil => rfl
  | cons a s n _ ihn => simp [append, keys, ihn]

theorem map_id (t : Forest α) : t.map (fun a => a) = t := by
  induction t with
  | nil => rfl
  | cons a s n ihs ihn => rw [map, ihs, ihn]

theorem map_map (f g : α → α) (t : Forest α) : (t.map f).map g = t.map fun a => g (f a) := by
  induction t with
  | nil => rfl
  | cons a s n ihs ihn => simp [map, ihs, ihn]

theorem flat_map {f : α → α} (hf : ∀ a, key (f a) = key a) (p : Option κ) (t : Forest α) :
    (t.map f).flat key p = (t.flat key p).map fun x => (x.1, f x.2) := by
  induction t generalizing p with
  | nil => rfl
  | cons a s n ihs ihn => simp [map, flat, ihs, ihn, hf]

theorem roots_map (f : α → α) (t : Forest α) : (t.map f).roots = t.roots.map f := by
  induction t with
  | nil => rfl
  | cons a s n _ ihn => simp [map, roots, ihn]

theorem map_append (f : α → β) (t g : Forest α) :
    (t.append g).map f = (t.map f).append (g.map f) := by
  induction t with
  | nil => rfl
  | cons a s n _ ihn => simp [append, map, ihn]

/-- Rewriting looks only at the nodes of the forest. -/
theorem map_congr (key : α → κ) {f g : α → α} {p : Option κ} {t : Forest α}
    (h : ∀ x ∈ t.flat key p, f x.2 = g x.2) : t.map f = t.map g := by
  induction t generalizing p with
  | nil => rfl
  | cons a s n ihs ihn =>
      simp only [flat, List.mem_cons, List.mem_append] at h
      rw [map, map, h (p, a) (.inl rfl), ihs fun x hx => h x (.inr (.inl hx)),
        ihn fun x hx => h x (.inr (.inr hx))]

/-! ## reading a forest from left to right -/

/-- Put the trees of the first forest, last tree first, in front of the
second. -/
def revOnto : Forest α → Forest α → Forest α
  | nil, acc => acc
  | cons a s next, acc => revOnto next (cons a s acc)

theorem revOnto_revOnto (t g acc : Forest α) :
    revOnto (revOnto t g) acc = revOnto g (t.append acc) := by
  induction t generalizing g with
  | nil => rfl
  | cons a s n _ ihn => rw [revOnto, ihn, revOnto, append]

/-- Turning a forest round twice gives it back. -/
theorem revOnto_nil (t : Forest α) : revOnto (revOnto t nil) nil = t := by
  rw [revOnto_revOnto, append_nil, revOnto]

/-! ## post-order -/

/-- The nodes in post-order that a walk comes to if it goes below the nodes
with property `p` only. -/
def through (p : α → Bool) : Forest α → List α
  | nil => []
  | cons a sub next => (if p a then through p sub else []) ++ a :: through p next

/-- Below an ancestor without the property such a walk comes to nothing. -/
theorem filter_postorder_of_not {p : α → Bool} (up : List α) (hup : up.all p = false)
    (t : Forest α) : (t.postorder up).filter (fun x => x.1.all p) = [] := by
  induction t generalizing up with
  | nil => rfl
  | cons a s n ihs ihn =>
      have hs : (a :: up).all p = false := by simp [hup]
      simp [postorder, ihs _ hs, ihn _ hup, hup]

/-- The walk comes to the nodes all of whose ancestors have the property. -/
theorem through_eq {p : α → Bool} (up : List α) (hup : up.all p = true) (t : Forest α) :
    t.through p = ((t.postorder up).filter fun x => x.1.all p).map Prod.snd := by
  induction t generalizing up with
  | nil => rfl
  | cons a s n ihs ihn =>
      rw [through, postorder, List.filter_append, List.filter_cons_of_pos (by exact hup),
        List.map_append, List.map_cons, ihn _ hup]
      cases ha : p a with
      | true => rw [if_pos rfl, ihs (a :: up) (by simp [ha, hup])]
      | false =>
          rw [filter_postorder_of_not (a :: up) (by simp [ha])]
          rfl

theorem mem_through {p : α → Bool} {t : Forest α} {a : α} :
    a ∈ t.through p ↔ ∃ up, (up, a) ∈ t.postorder [] ∧ up.all p = true := by
  simp [through_eq [] rfl]

/-! ## the operations at a key -/

section AtKey

variable (key) [DecidableEq κ]

/-- The node with key `k`, with the key of its parent. -/
def node? (k : κ) (t : Forest α) : Option (Option κ × α) :=
  (t.flat key none).find? fun x => key x.2 = k

/-- Rewrite the node with key `k`. -/
def modify (k : κ) (f : α → α) (t : Forest α) : Forest α :=
  t.map fun a => if key a = k then f a else a

/-- The children of the node with key `k`. -/
def sub (k : κ) : Forest α → Forest α
  | nil => nil
  | cons a s next => if key a = k then s else append (sub k s) (sub k next)

/-- Put the sibling list `g` in front of the children of node `k`. -/
def graft (k : κ) : Forest α → Forest α → Forest α
  | nil, _ => nil
  | cons a s next, g =>
      if key a = k then cons a (append g s) next
      else cons a (graft k s g) (graft k next g)

/-- Cut out the node with key `k` and everything below it. -/
def erase (k : κ) : Forest α → Forest α
  | nil => nil
  | cons a s next =>
      if key a = k then next
      else cons a (erase k s) (erase k next)

variable {key}

/-- `node?` finds the node with the key, given that keys are distinct. -/
theorem node?_eq_some_iff {t : Forest α} (hn : (t.keys key).Nodup) {k : κ}
    {x : Option κ × α} :
    t.node? key k = some x ↔ x ∈ t.flat key none ∧ key x.2 = k := by
  constructor
  · intro h
    have hm := List.mem_of_find?_eq_some h
    have hk := List.find?_some h
    exact ⟨hm, by simpa using hk⟩
  · rintro ⟨hm, rfl⟩
    cases hf : t.node? key (key x.2) with
    | none =>
        have := List.find?_eq_none.mp hf x hm
        simp at this
    | some y =>
        have hy := List.mem_of_find?_eq_some hf
        have hk : key y.2 = key x.2 := by simpa using List.find?_some hf
        rw [eq_of_mem_flat hn hy hm hk]

theorem node?_eq_none_iff {t : Forest α} {k : κ} :
    t.node? key k = none ↔ k ∉ t.keys key := by
  rw [node?, List.find?_eq_none]
  constructor
  · intro h hk
    obtain ⟨x, hx, hxk⟩ := exists_mem_flat hk none
    exact absurd hxk (by simpa using h x hx)
  · intro h x hx
    have := mem_keys_of_mem_flat hx
    simp only [decide_eq_true_eq]
    intro hxk
    exact h (hxk ▸ this)

/-! ## modify -/

/-- `modify` rewrites one node of the flat list and leaves every parent. -/
theorem flat_modify {f : α → α} (hf : ∀ a, key (f a) = key a) (k : κ) (p : Option κ)
    (t : Forest α) :
    (t.modify key k f).flat key p =
      (t.flat key p).map fun x => (x.1, if key x.2 = k then f x.2 else x.2) := by
  refine flat_map ?_ p t
  intro a
  by_cases h : key a = k
  · simp [h, hf]
  · simp [h]

@[simp] theorem keys_modify {f : α → α} (hf : ∀ a, key (f a) = key a) (k : κ) (t : Forest α) :
    (t.modify key k f).keys key = t.keys key := by
  rw [← map_key_flat none, flat_modify hf, List.map_map, ← map_key_flat none]
  refine List.map_congr_left fun x _ => ?_
  by_cases h : key x.2 = k <;> simp [h, hf]

/-! ## sub -/

theorem sub_of_not_mem {k : κ} {t : Forest α} (h : k ∉ t.keys key) : t.sub key k = nil := by
  induction t with
  | nil => rfl
  | cons a s n ihs ihn =>
      simp only [keys, List.mem_cons, List.mem_append, not_or] at h
      rw [sub, if_neg (Ne.symm h.1), ihs h.2.1, ihn h.2.2, append]

/-- Nothing in a forest without the key `k` hangs below `k`. -/
theorem filter_flat_of_not_mem {k : κ} {t : Forest α} (h : k ∉ t.keys key) {p : Option κ}
    (hp : p ≠ some k) : (t.flat key p).filter (fun x => x.1 = some k) = [] := by
  induction t generalizing p with
  | nil => rfl
  | cons a s n ihs ihn =>
      simp only [keys, List.mem_cons, List.mem_append, not_or] at h
      have ha : some (key a) ≠ some k := by simpa using Ne.symm h.1
      simp [flat, hp, ihs h.2.1 ha, ihn h.2.2 hp]

theorem filter_flat_some {k : κ} {t : Forest α} (h : k ∉ t.keys key) :
    ((t.flat key (some k)).filter (fun x => x.1 = some k)).map Prod.snd = t.roots := by
  induction t with
  | nil => rfl
  | cons a s n _ ihn =>
      simp only [keys, List.mem_cons, List.mem_append, not_or] at h
      have ha : some (key a) ≠ some k := by simpa using Ne.symm h.1
      simp [flat, roots, filter_flat_of_not_mem h.2.1 ha, ihn h.2.2]

/-- The children of `k` are the nodes whose parent is `k`, in order. -/
theorem roots_sub {k : κ} {t : Forest α} (hn : (t.keys key).Nodup) {p : Option κ}
    (hp : p ≠ some k) :
    (t.sub key k).roots = ((t.flat key p).filter fun x => x.1 = some k).map Prod.snd := by
  induction t generalizing p with
  | nil => rfl
  | cons a s n ihs ihn =>
      simp only [keys, List.nodup_cons, List.mem_append, not_or, List.nodup_append] at hn
      obtain ⟨⟨has, han⟩, hns, hnn, -⟩ := hn
      by_cases hk : key a = k
      · subst hk
        simp [sub, flat, hp, filter_flat_some has,
          filter_flat_of_not_mem han hp]
      · have ha : some (key a) ≠ some k := by simpa using hk
        simp [sub, hk, flat, hp, roots_append, ihs hns ha, ihn hnn hp]

theorem mem_roots_sub {k : κ} {t : Forest α} (hn : (t.keys key).Nodup) {a : α} :
    a ∈ (t.sub key k).roots ↔ (some k, a) ∈ t.flat key none := by
  rw [roots_sub hn (p := none) (by simp)]
  simp [and_comm]

theorem keys_sub_subset {k : κ} {t : Forest α} : (t.sub key k).keys key ⊆ t.keys key := by
  induction t with
  | nil => exact List.Subset.refl _
  | cons a s n ihs ihn =>
      by_cases ha : key a = k
      · rw [sub, if_pos ha]
        exact List.subset_cons_of_subset _ (List.subset_append_left _ _)
      · rw [sub, if_neg ha, keys_append]
        exact List.subset_cons_of_subset _ (List.append_subset.mpr
          ⟨List.subset_append_of_subset_left _ ihs, List.subset_append_of_subset_right _ ihn⟩)

/-- What lies below what lies below `j` lies below `j`. -/
theorem keys_sub_trans {j k : κ} {t : Forest α} (hn : (t.keys key).Nodup)
    (hk : k ∈ (t.sub key j).keys key) : (t.sub key k).keys key ⊆ (t.sub key j).keys key := by
  induction t with
  | nil => cases hk
  | cons a s n ihs ihn =>
      simp only [keys, List.nodup_cons, List.mem_append, not_or, List.nodup_append] at hn
      obtain ⟨⟨has, han⟩, hns, hnn, hsn⟩ := hn
      have hleft : k ∈ s.keys key → (cons a s n).sub key k = s.sub key k := fun hks => by
        rw [sub, if_neg fun ha : key a = k => has (ha ▸ hks),
          sub_of_not_mem fun hkn => hsn k hks k hkn rfl, append_nil]
      have hright : k ∈ n.keys key → (cons a s n).sub key k = n.sub key k := fun hkn => by
        rw [sub, if_neg fun ha : key a = k => han (ha ▸ hkn),
          sub_of_not_mem fun hks => hsn k hks k hkn rfl, append]
      by_cases ha : key a = j
      · have hj : (cons a s n).sub key j = s := by rw [sub, if_pos ha]
        rw [hj] at hk ⊢
        rw [hleft hk]
        exact keys_sub_subset
      · have hj : (cons a s n).sub key j = (s.sub key j).append (n.sub key j) := by
          rw [sub, if_neg ha]
        rw [hj, keys_append] at hk ⊢
        rcases List.mem_append.mp hk with hk | hk
        · rw [hleft (keys_sub_subset hk)]
          exact List.subset_append_of_subset_left _ (ihs hns hk)
        · rw [hright (keys_sub_subset hk)]
          exact List.subset_append_of_subset_right _ (ihn hnn hk)

/-- Nothing lies below itself. -/
theorem not_mem_keys_sub {k : κ} {t : Forest α} (hn : (t.keys key).Nodup) :
    k ∉ (t.sub key k).keys key := by
  induction t with
  | nil => exact List.not_mem_nil
  | cons a s n ihs ihn =>
      simp only [keys, List.nodup_cons, List.mem_append, not_or, List.nodup_append] at hn
      obtain ⟨⟨has, han⟩, hns, hnn, -⟩ := hn
      by_cases ha : key a = k
      · rw [sub, if_pos ha, ← ha]
        exact has
      · rw [sub, if_neg ha, keys_append, List.mem_append, not_or]
        exact ⟨ihs hns, ihn hnn⟩

/-! ## graft -/

theorem graft_of_not_mem {k : κ} {g t : Forest α} (h : k ∉ t.keys key) :
    t.graft key k g = t := by
  induction t with
  | nil => rfl
  | cons a s n ihs ihn =>
      simp only [keys, List.mem_cons, List.mem_append, not_or] at h
      rw [graft, if_neg (Ne.symm h.1), ihs h.2.1, ihn h.2.2]

/-- Grafting adds the nodes of the grafted list, below `k`, and nothing else. -/
theorem flat_graft {k : κ} {g t : Forest α} (hn : (t.keys key).Nodup)
    (hk : k ∈ t.keys key) (p : Option κ) :
    ((t.graft key k g).flat key p).Perm (g.flat key (some k) ++ t.flat key p) := by
  induction t generalizing p with
  | nil => cases hk
  | cons a s n ihs ihn =>
      simp only [keys, List.nodup_cons, List.mem_append, not_or, List.nodup_append] at hn
      obtain ⟨⟨has, han⟩, hns, hnn, hsn⟩ := hn
      by_cases ha : key a = k
      · subst ha
        simp only [graft, if_pos, flat, flat_append, List.append_assoc]
        exact List.perm_middle.symm
      · rw [graft, if_neg ha]
        simp only [keys, List.mem_cons, List.mem_append, Ne.symm ha, false_or] at hk
        rcases hk with hs | hnx
        · have hkn : k ∉ n.keys key := fun h => hsn k hs k h rfl
          simp only [flat, graft_of_not_mem hkn]
          refine (List.Perm.cons _ ((ihs hns hs _).append_right _)).trans ?_
          rw [List.append_assoc]
          exact List.perm_middle.symm
        · have hks : k ∉ s.keys key := fun h => hsn k h k hnx rfl
          simp only [flat, graft_of_not_mem hks]
          refine (List.Perm.cons _ ((ihn hnn hnx _).append_left _)).trans ?_
          refine (List.Perm.cons _ ?_).trans List.perm_middle.symm
          rw [← List.append_assoc, ← List.append_assoc]
          exact List.perm_append_comm.append_right _

theorem keys_graft {k : κ} {g t : Forest α} (hn : (t.keys key).Nodup)
    (hk : k ∈ t.keys key) : ((t.graft key k g).keys key).Perm (g.keys key ++ t.keys key) := by
  have h := (flat_graft (g := g) hn hk none).map fun x => key x.2
  simpa using h

/-! ## erase -/

theorem erase_of_not_mem {k : κ} {t : Forest α} (h : k ∉ t.keys key) :
    t.erase key k = t := by
  induction t with
  | nil => rfl
  | cons a s n ihs ihn =>
      simp only [keys, List.mem_cons, List.mem_append, not_or] at h
      rw [erase, if_neg (Ne.symm h.1), ihs h.2.1, ihn h.2.2]

/-- Cutting out a node splits the flat list into the node, its subtree and
what is left. -/
theorem flat_erase {t : Forest α} (hn : (t.keys key).Nodup) {p : Option κ}
    {x : Option κ × α} (hx : x ∈ t.flat key p) :
    (t.flat key p).Perm
      (x :: ((t.sub key (key x.2)).flat key (some (key x.2)) ++
        (t.erase key (key x.2)).flat key p)) := by
  induction t generalizing p with
  | nil => cases hx
  | cons a s n ihs ihn =>
      simp only [keys, List.nodup_cons, List.mem_append, not_or, List.nodup_append] at hn
      obtain ⟨⟨has, han⟩, hns, hnn, hsn⟩ := hn
      simp only [flat, List.mem_cons, List.mem_append] at hx
      rcases hx with rfl | hx | hx
      · simp [flat, sub, erase]
      · have hm := mem_keys_of_mem_flat hx
        have ha : key a ≠ key x.2 := fun h => has (h ▸ hm)
        have hkn : key x.2 ∉ n.keys key := fun h => hsn _ hm _ h rfl
        simp only [flat, sub, erase, if_neg ha, sub_of_not_mem hkn, erase_of_not_mem hkn,
          append_nil]
        refine (List.Perm.cons _ ((ihs hns hx).append_right _)).trans ?_
        refine (List.Perm.swap _ _ _).trans (List.Perm.cons _ ?_)
        change ((p, a) :: (_ ++ _ ++ _)).Perm _
        rw [List.append_assoc]
        exact List.perm_middle.symm
      · have hm := mem_keys_of_mem_flat hx
        have ha : key a ≠ key x.2 := fun h => han (h ▸ hm)
        have hks : key x.2 ∉ s.keys key := fun h => hsn _ h _ hm rfl
        simp only [flat, sub, erase, if_neg ha, sub_of_not_mem hks, erase_of_not_mem hks,
          append]
        refine (List.Perm.cons _ ((ihn hnn hx).append_left _)).trans ?_
        refine (List.Perm.cons _ List.perm_middle).trans ?_
        refine (List.Perm.swap _ _ _).trans (List.Perm.cons _ ?_)
        refine (List.Perm.cons _ ?_).trans List.perm_middle.symm
        rw [← List.append_assoc, ← List.append_assoc]
        exact List.perm_append_comm.append_right _

/-- What is below a node is in the forest. -/
theorem flat_sub_subset {k : κ} {t : Forest α} (hn : (t.keys key).Nodup) :
    (t.sub key k).flat key (some k) ⊆ t.flat key none := by
  intro y hy
  by_cases hk : k ∈ t.keys key
  · obtain ⟨x, hx, rfl⟩ := exists_mem_flat hk none
    exact (flat_erase hn hx).mem_iff.mpr (List.mem_cons_of_mem _ (List.mem_append_left _ hy))
  · rw [sub_of_not_mem hk] at hy
    cases hy

theorem nodup_keys_sub {k : κ} {t : Forest α} (hn : (t.keys key).Nodup) :
    ((t.sub key k).keys key).Nodup := by
  by_cases hk : k ∈ t.keys key
  · obtain ⟨x, hx, rfl⟩ := exists_mem_flat hk none
    have hperm := (flat_erase hn hx).map fun y => key y.2
    rw [List.map_cons, List.map_append, map_key_flat, map_key_flat, map_key_flat] at hperm
    exact (List.nodup_cons.mp (hperm.nodup_iff.mp hn)).2.of_append_left
  · rw [sub_of_not_mem hk]
    exact List.nodup_nil

/-- Cutting out a leaf only drops that leaf. -/
theorem flat_erase_leaf {k : κ} {t : Forest α} (hn : (t.keys key).Nodup)
    (hl : t.sub key k = nil) (p : Option κ) :
    (t.erase key k).flat key p = (t.flat key p).filter fun x => key x.2 ≠ k := by
  induction t generalizing p with
  | nil => rfl
  | cons a s n ihs ihn =>
      simp only [keys, List.nodup_cons, List.mem_append, not_or, List.nodup_append] at hn
      obtain ⟨⟨has, han⟩, hns, hnn, hsn⟩ := hn
      by_cases ha : key a = k
      · subst ha
        rw [sub, if_pos rfl] at hl
        subst hl
        have hall : ∀ x ∈ n.flat key p, key x.2 ≠ key a := by
          intro x hx h
          exact han (h ▸ mem_keys_of_mem_flat hx)
        simp only [erase, if_pos, flat, List.nil_append]
        rw [List.filter_cons_of_neg (by simp), List.filter_eq_self.mpr (by simpa using hall)]
      · rw [sub, if_neg ha] at hl
        have hs : s.sub key k = nil := by
          cases h : s.sub key k with
          | nil => rfl
          | cons b u w => rw [h] at hl; cases hl
        have hnx : n.sub key k = nil := by rw [hs] at hl; exact hl
        simp [erase, ha, flat, ihs hns hs, ihn hnn hnx]

theorem flat_erase_sublist {k : κ} (p : Option κ) (t : Forest α) :
    ((t.erase key k).flat key p).Sublist (t.flat key p) := by
  induction t generalizing p with
  | nil => exact List.Sublist.refl _
  | cons a s n ihs ihn =>
      by_cases ha : key a = k
      · rw [erase, if_pos ha]
        exact (List.sublist_append_right _ _).cons _
      · rw [erase, if_neg ha]
        exact ((ihs _).append (ihn _)).cons_cons _

theorem keys_erase_sublist {k : κ} {t : Forest α} :
    ((t.erase key k).keys key).Sublist (t.keys key) := by
  rw [← map_key_flat none t, ← map_key_flat none]
  exact (flat_erase_sublist none t).map _

/-- The parent of a node is still there when the node is cut out. -/
theorem parent_mem_keys_erase {t : Forest α} (hn : (t.keys key).Nodup) {p : Option κ} {k : κ}
    {a : α} (hx : (some k, a) ∈ t.flat key p) :
    p = some k ∨ k ∈ (t.erase key (key a)).keys key := by
  induction t generalizing p with
  | nil => cases hx
  | cons b s n ihs ihn =>
      simp only [keys, List.nodup_cons, List.mem_append, not_or, List.nodup_append] at hn
      obtain ⟨⟨hbs, hbn⟩, hns, hnn, -⟩ := hn
      simp only [flat, List.mem_cons, List.mem_append] at hx
      rcases hx with hx | hx | hx
      · cases hx
        exact .inl rfl
      · have hne : key b ≠ key a := fun h => hbs (h ▸ mem_keys_of_mem_flat hx)
        rw [erase, if_neg hne]
        rcases ihs hns hx with h | h
        · exact .inr (by simp [keys, Option.some.inj h])
        · exact .inr (by simp [keys, h])
      · have hne : key b ≠ key a := fun h => hbn (h ▸ mem_keys_of_mem_flat hx)
        rw [erase, if_neg hne]
        rcases ihn hnn hx with h | h
        · exact .inl h
        · exact .inr (by simp [keys, h])

theorem nodup_keys_erase {k : κ} {t : Forest α} (hn : (t.keys key).Nodup) :
    ((t.erase key k).keys key).Nodup := hn.sublist keys_erase_sublist

/-- A node that is cut out is gone. -/
theorem not_mem_keys_erase {k : κ} {t : Forest α} (hn : (t.keys key).Nodup) :
    k ∉ (t.erase key k).keys key := by
  induction t with
  | nil => exact List.not_mem_nil
  | cons a s n ihs ihn =>
      simp only [keys, List.nodup_cons, List.mem_append, not_or, List.nodup_append] at hn
      obtain ⟨⟨has, han⟩, hns, hnn, -⟩ := hn
      by_cases hk : key a = k
      · rw [erase, if_pos hk, ← hk]
        exact han
      · rw [erase, if_neg hk]
        simp only [keys, List.mem_cons, List.mem_append, not_or]
        exact ⟨Ne.symm hk, ihs hns, ihn hnn⟩

/-- Cutting out a node that does not lie below `j` leaves the children of `j`
as they were. -/
theorem sub_erase {j k : κ} {t : Forest α} (hn : (t.keys key).Nodup)
    (hj : j ∈ (t.erase key k).keys key) (hk : k ∉ (t.sub key j).keys key) :
    (t.erase key k).sub key j = t.sub key j := by
  induction t with
  | nil => rfl
  | cons a s n ihs ihn =>
      simp only [keys, List.nodup_cons, List.mem_append, not_or, List.nodup_append] at hn
      obtain ⟨⟨has, han⟩, hns, hnn, hsn⟩ := hn
      by_cases ha : key a = k
      · rw [erase, if_pos ha] at hj ⊢
        rw [sub, if_neg fun h : key a = j => han (h ▸ hj),
          sub_of_not_mem fun hs => hsn j hs j hj rfl, append]
      · rw [erase, if_neg ha] at hj ⊢
        by_cases haj : key a = j
        · rw [sub, if_pos haj] at hk
          rw [sub, if_pos haj, sub, if_pos haj, erase_of_not_mem hk]
        · rw [sub, if_neg haj, keys_append, List.mem_append, not_or] at hk
          rw [sub, if_neg haj, sub, if_neg haj]
          simp only [keys, List.mem_cons, List.mem_append, Ne.symm haj, false_or] at hj
          rcases hj with hj | hj
          · have hjn : j ∉ n.keys key := fun hn' =>
              hsn j (keys_erase_sublist.subset hj) j hn' rfl
            rw [ihs hns hj hk.1, sub_of_not_mem hjn,
              sub_of_not_mem fun h => hjn (keys_erase_sublist.subset h)]
          · have hjs : j ∉ s.keys key := fun hs' =>
              hsn j hs' j (keys_erase_sublist.subset hj) rfl
            rw [ihn hnn hj hk.2, sub_of_not_mem hjs,
              sub_of_not_mem fun h => hjs (keys_erase_sublist.subset h)]

/-! ## rewriting nodes commutes with the structural operations -/

section Map

variable {f : α → α} (hf : ∀ a, key (f a) = key a)
include hf

theorem map_sub (k : κ) (t : Forest α) : (t.sub key k).map f = (t.map f).sub key k := by
  induction t with
  | nil => rfl
  | cons a s n ihs ihn =>
      by_cases ha : key a = k
      · simp [sub, map, hf, ha]
      · simp [sub, map, hf, ha, map_append, ihs, ihn]

theorem map_graft (k : κ) (t g : Forest α) :
    (t.graft key k g).map f = (t.map f).graft key k (g.map f) := by
  induction t with
  | nil => rfl
  | cons a s n ihs ihn =>
      by_cases ha : key a = k
      · simp [graft, map, hf, ha, map_append]
      · simp [graft, map, hf, ha, ihs, ihn]

theorem map_erase (k : κ) (t : Forest α) : (t.erase key k).map f = (t.map f).erase key k := by
  induction t with
  | nil => rfl
  | cons a s n ihs ihn =>
      by_cases ha : key a = k
      · simp [erase, map, hf, ha]
      · simp [erase, map, hf, ha, ihs, ihn]

end Map

theorem modify_of_not_mem {k : κ} {f : α → α} {t : Forest α} (h : k ∉ t.keys key) :
    t.modify key k f = t := by
  refine (map_congr key (p := none) fun x hx => if_neg ?_).trans (map_id t)
  intro hk
  exact h (hk ▸ mem_keys_of_mem_flat hx)

/-! ## a fresh leaf -/

/-- A leaf that was grafted under a fresh key is cut out again without a
trace. -/
theorem erase_graft {a : α} {k : κ} {t : Forest α} (h : key a ∉ t.keys key) :
    (t.graft key k (cons a nil nil)).erase key (key a) = t := by
  induction t with
  | nil => rfl
  | cons b s n ihs ihn =>
      simp only [keys, List.mem_cons, List.mem_append, not_or] at h
      have hb : key b ≠ key a := Ne.symm h.1
      by_cases hk : key b = k
      · rw [graft, if_pos hk, append, append, erase, if_neg hb, erase, if_pos rfl,
          erase_of_not_mem h.2.2]
      · rw [graft, if_neg hk, erase, if_neg hb, ihs h.2.1, ihn h.2.2]

/-- The children of the node grafted to: the new ones first. -/
theorem sub_graft_self {k : κ} {t g : Forest α} (hn : (t.keys key).Nodup)
    (hk : k ∈ t.keys key) : (t.graft key k g).sub key k = g.append (t.sub key k) := by
  induction t with
  | nil => cases hk
  | cons a s n ihs ihn =>
      simp only [keys, List.nodup_cons, List.mem_append, not_or, List.nodup_append] at hn
      obtain ⟨⟨has, han⟩, hns, hnn, hsn⟩ := hn
      by_cases ha : key a = k
      · simp [graft, sub, ha]
      · simp only [keys, List.mem_cons, List.mem_append, Ne.symm ha, false_or] at hk
        rcases hk with hs | hnx
        · have hkn : k ∉ n.keys key := fun h => hsn k hs k h rfl
          rw [graft, if_neg ha, graft_of_not_mem hkn, sub, if_neg ha, sub, if_neg ha,
            sub_of_not_mem hkn, append_nil, append_nil, ihs hns hs]
        · have hks : k ∉ s.keys key := fun h => hsn k h k hnx rfl
          rw [graft, if_neg ha, graft_of_not_mem hks, sub, if_neg ha, sub, if_neg ha,
            sub_of_not_mem hks, append, append, ihn hnn hnx]

theorem graft_append {k : κ} {g : Forest α} (t u : Forest α)
    (hk : k ∉ t.keys key ∨ k ∉ u.keys key) :
    (t.append u).graft key k g = (t.graft key k g).append (u.graft key k g) := by
  induction t with
  | nil => rfl
  | cons a s n _ ihn =>
      by_cases ha : key a = k
      · have hu : k ∉ u.keys key := hk.resolve_left fun h => h (by simp [keys, ha])
        rw [append, graft, graft, if_pos ha, if_pos ha, append, graft_of_not_mem hu]
      · have hn : k ∉ n.keys key ∨ k ∉ u.keys key := hk.imp_left fun h hn => h (by simp [keys, hn])
        rw [append, graft, graft, if_neg ha, if_neg ha, append, ihn hn]

/-- Grafting a leaf elsewhere is grafting it in the tree below `j`. -/
theorem sub_graft {j k : κ} {a : α} {t : Forest α} (hn : (t.keys key).Nodup) (hj : j ≠ k)
    (ha : j ≠ key a) : (t.graft key k (cons a nil nil)).sub key j =
      (t.sub key j).graft key k (cons a nil nil) := by
  induction t with
  | nil => rfl
  | cons b s n ihs ihn =>
      simp only [keys, List.nodup_cons, List.mem_append, not_or, List.nodup_append] at hn
      obtain ⟨⟨hbs, hbn⟩, hns, hnn, hsn⟩ := hn
      by_cases hbj : key b = j
      · rw [graft, if_neg (hbj ▸ hj), sub, if_pos hbj, sub, if_pos hbj]
      · by_cases hb : key b = k
        · have hnot : k ∉ ((s.sub key j).append (n.sub key j)).keys key := by
            rw [keys_append, List.mem_append, ← hb]
            rintro (h | h)
            · exact hbs (keys_sub_subset h)
            · exact hbn (keys_sub_subset h)
          rw [sub, if_neg hbj, graft_of_not_mem hnot]
          simp [graft, hb, sub, hj.symm, Ne.symm ha, append]
        · have hside : k ∉ (s.sub key j).keys key ∨ k ∉ (n.sub key j).keys key := by
            by_contra hboth
            rw [not_or, not_not, not_not] at hboth
            exact hsn k (keys_sub_subset hboth.1) k (keys_sub_subset hboth.2) rfl
          rw [graft, if_neg hb, sub, if_neg hbj, sub, if_neg hbj, ihs hns, ihn hnn,
            graft_append _ _ hside]

/-- Grafting a leaf elsewhere does not change the tree below `j`. -/
theorem sub_graft_of_not_mem {j k : κ} {a : α} {t : Forest α} (hj : j ≠ k) (ha : j ≠ key a)
    (hk : k ∉ (t.sub key j).keys key) :
    (t.graft key k (cons a nil nil)).sub key j = t.sub key j := by
  induction t with
  | nil => rfl
  | cons b s n ihs ihn =>
      by_cases hbj : key b = j
      · have hb : key b ≠ k := hbj ▸ hj
        rw [sub, if_pos hbj] at hk
        rw [graft, if_neg hb, sub, if_pos hbj, sub, if_pos hbj, graft_of_not_mem hk]
      · rw [sub, if_neg hbj, keys_append, List.mem_append, not_or] at hk
        by_cases hb : key b = k
        · simp [graft, hb, sub, hj.symm, Ne.symm ha, append]
        · simp [graft, hb, sub, hbj, ihs hk.1, ihn hk.2]

theorem size_erase_le (key : α → κ) (k : κ) (t : Forest α) : (t.erase key k).size ≤ t.size := by
  rw [← length_keys key, ← length_keys key]
  exact keys_erase_sublist.length_le

theorem size_erase_lt {k : κ} {t : Forest α} (hk : k ∈ t.keys key) :
    (t.erase key k).size < t.size := by
  induction t with
  | nil => cases hk
  | cons a s n ihs ihn =>
      by_cases ha : key a = k
      · rw [erase, if_pos ha, size]
        omega
      · simp only [keys, List.mem_cons, List.mem_append, Ne.symm ha, false_or] at hk
        rw [erase, if_neg ha, size, size]
        have hs := size_erase_le key k s
        have hx := size_erase_le key k n
        rcases hk with h | h
        · have := ihs h
          omega
        · have := ihn h
          omega

/-! ## all nodes with their children -/

/-- Something holds of every node and its children. -/
def All (P : α → Forest α → Prop) : Forest α → Prop
  | nil => True
  | cons a s next => P a s ∧ All P s ∧ All P next

/-- What holds of every node and the children under its key holds throughout
the forest. -/
theorem all_of_flat {P : α → Forest α → Prop} {t : Forest α} (hn : (t.keys key).Nodup)
    {p : Option κ} (h : ∀ x ∈ t.flat key p, P x.2 (t.sub key (key x.2))) : All P t := by
  induction t generalizing p with
  | nil => trivial
  | cons a s n ihs ihn =>
      simp only [keys, List.nodup_cons, List.mem_append, not_or, List.nodup_append] at hn
      obtain ⟨⟨has, han⟩, hns, hnn, hsn⟩ := hn
      refine ⟨?_, ihs hns (p := some (key a)) fun x hx => ?_, ihn hnn (p := p) fun x hx => ?_⟩
      · have := h (p, a) (by simp [flat])
        rwa [sub, if_pos rfl] at this
      · have hk := mem_keys_of_mem_flat hx
        have hne : key a ≠ key x.2 := fun heq => has (heq ▸ hk)
        have := h x (by simp [flat, hx])
        rwa [sub, if_neg hne, sub_of_not_mem fun hkn => hsn _ hk _ hkn rfl,
          append_nil] at this
      · have hk := mem_keys_of_mem_flat hx
        have hne : key a ≠ key x.2 := fun heq => han (heq ▸ hk)
        have := h x (by simp [flat, hx])
        rwa [sub, if_neg hne, sub_of_not_mem fun hks => hsn _ hks _ hk rfl,
          append] at this

end AtKey

end Forest
