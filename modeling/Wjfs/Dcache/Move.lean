import Wjfs.Dcache.Bare

/-!
# Wjfs.Dcache.Move

`d_move` and the references around it.

`d_move` exchanges the places of a dentry and of the leaf it replaces, so the
account of references stays as it is; the leaf then goes with its last
reference.
-/

namespace Wjfs

namespace Dcache

variable {t t' t'' : Dcache} {root k p q : Ptr} {ext pin : Ptr → Nat} {d e : Dentry}
  {x : Option Ptr × Dentry}

/-! ## what lies below a dentry -/

theorem mem_keys_subdirs (hn : t.ptrs.Nodup) (hd : (some p, d) ∈ t.nodes) :
    d.ptr ∈ Forest.keys Dentry.ptr (t.subdirs p) :=
  Forest.mem_keys_of_mem_roots ((mem_subdirs_iff hn).mpr hd)

/-- The parent of a dentry is not below it. -/
theorem parent_not_mem_subdirs (hn : t.ptrs.Nodup) (hd : (some p, d) ∈ t.nodes) :
    p ∉ Forest.keys Dentry.ptr (t.subdirs d.ptr) := fun hp =>
  Forest.not_mem_keys_sub hn (Forest.keys_sub_trans hn hp (mem_keys_subdirs hn hd))

/-- The parent of what lies below a dentry is that dentry or lies below it. -/
theorem parent_below (hn : t.ptrs.Nodup) (hd : d ∈ t.nodes.map (fun x => x.2))
    (hx : (some p, e) ∈ t.nodes) (he : e.ptr ∈ Forest.keys Dentry.ptr (t.subdirs d.ptr)) :
    p = d.ptr ∨ p ∈ Forest.keys Dentry.ptr (t.subdirs d.ptr) := by
  obtain ⟨z, hz, rfl⟩ := List.mem_map.mp hd
  obtain ⟨y, hy, hye⟩ := Forest.exists_mem_flat he (some z.2.ptr)
  have hym : y ∈ t.nodes := (Forest.flat_erase hn hz).mem_iff.mpr
    (List.mem_cons_of_mem _ (List.mem_append_left _ hy))
  obtain rfl : y = (some p, e) := Forest.eq_of_mem_flat hn hym hx hye
  rcases Forest.parent_of_mem_flat hy with h | ⟨k, hk, h⟩
  · exact .inl (Option.some.inj h)
  · exact .inr (Option.some.inj h ▸ hk)

/-! ## `d_move` -/

/-- What is left of the tree when a dentry is cut out. -/
theorem mem_nodes_unlinkChild_of_not_below (hn : t.ptrs.Nodup) (hd : (some p, d) ∈ t.nodes)
    (he : (some q, e) ∈ t.nodes) (hde : d.ptr ≠ e.ptr) (hqd : q ≠ d.ptr)
    (hq : q ∉ Forest.keys Dentry.ptr (t.subdirs d.ptr)) :
    (some q, e) ∈ (t.unlinkChild d.ptr).nodes := by
  have hmem := (Forest.flat_erase hn hd).mem_iff.mp he
  simp only [List.mem_cons, List.mem_append] at hmem
  rcases hmem with h | h | h
  · cases h
    exact absurd rfl hde
  · -- it would lie below `d`, and so would its parent
    rcases Forest.parent_of_mem_flat h with h | ⟨k, hk, h⟩
    · exact absurd (Option.some.inj h) hqd
    · exact absurd (Option.some.inj h ▸ hk) hq
  · exact h

/-- The addresses of a tree from which a dentry is cut out. -/
theorem ptrs_perm_unlinkChild (hn : t.ptrs.Nodup) (hd : (some p, d) ∈ t.nodes) :
    t.ptrs.Perm (d.ptr :: (Forest.keys Dentry.ptr (t.subdirs d.ptr) ++
      (t.unlinkChild d.ptr).ptrs)) := by
  have h := (Forest.flat_erase hn hd).map fun x => x.2.ptr
  simp only [List.map_cons, List.map_append, Forest.map_key_flat] at h
  exact h

theorem mem_ptrs_unlinkChild (hn : t.ptrs.Nodup) (hd : (some p, d) ∈ t.nodes) (hk : k ∈ t.ptrs)
    (hkd : k ≠ d.ptr) (hk' : k ∉ Forest.keys Dentry.ptr (t.subdirs d.ptr)) :
    k ∈ (t.unlinkChild d.ptr).ptrs := by
  have hmem := (ptrs_perm_unlinkChild hn hd).mem_iff.mp hk
  simp only [List.mem_cons, List.mem_append] at hmem
  tauto

/-- A dentry with what is below it, put under another parent. -/
theorem nodes_listAdd (hn : t.ptrs.Nodup) (hp : p ∈ t.ptrs) (d : Dentry) (s : Dcache) :
    (t.listAdd p (.cons d s .nil)).nodes.Perm
      ((some p, d) :: (Forest.flat Dentry.ptr (some d.ptr) s ++ t.nodes)) := by
  refine (Forest.flat_graft hn hp none).trans ?_
  simp only [Forest.flat, List.append_nil, List.cons_append]
  exact List.Perm.refl _

/-- `d_move` exchanges the places of two dentries, each with everything below
it, if neither lies below the other. -/
theorem nodes_dMove (hn : t.ptrs.Nodup) (hd : (some p, d) ∈ t.nodes) (he : (some q, e) ∈ t.nodes)
    (hde : d.ptr ≠ e.ptr) (hpe : p ≠ e.ptr)
    (hp : p ∉ Forest.keys Dentry.ptr (t.subdirs e.ptr)) (hqd : q ≠ d.ptr)
    (hq : q ∉ Forest.keys Dentry.ptr (t.subdirs d.ptr)) :
    ∃ rest, t.nodes.Perm ((some p, d) :: (some q, e) :: rest) ∧
      (t.dMove d.ptr e.ptr).nodes.Perm
        ((some q, { d.rehash with dName := e.dName }) ::
          (some p, { e.drop with dName := switchedName d.dName e.dName }) :: rest) := by
  have hperm := Forest.flat_erase hn hd
  have hn1 : (t.unlinkChild d.ptr).ptrs.Nodup := nodup_unlinkChild hn
  have he1 := mem_nodes_unlinkChild_of_not_below hn hd he hde hqd hq
  have hp1 : p ∈ (t.unlinkChild d.ptr).ptrs :=
    (Forest.parent_mem_keys_erase hn hd).resolve_left (by simp)
  have hq1 := mem_ptrs_unlinkChild hn hd (parent_mem_ptrs he) hqd hq
  -- below `e` nothing was cut out
  have hsub : (t.unlinkChild d.ptr).subdirs e.ptr = t.subdirs e.ptr :=
    Forest.sub_erase hn (mem_ptrs_of_mem he1) fun hde' =>
      (parent_below hn (List.mem_map.mpr ⟨_, he, rfl⟩) hd hde').elim hpe hp
  have hperm1 : (t.unlinkChild d.ptr).nodes.Perm ((some q, e) ::
      (Forest.flat Dentry.ptr (some e.ptr) (t.subdirs e.ptr) ++
        ((t.unlinkChild d.ptr).unlinkChild e.ptr).nodes)) := by
    rw [← hsub]
    exact Forest.flat_erase hn1 he1
  have hptrs1 := ptrs_perm_unlinkChild hn1 he1
  rw [hsub] at hptrs1
  have hp2 := mem_ptrs_unlinkChild hn1 he1 hp1 hpe (by rw [hsub]; exact hp)
  have hq2 := mem_ptrs_unlinkChild hn1 he1 hq1 (parent_ne_ptr hn he)
    (parent_not_mem_subdirs hn1 he1)
  have hn2 := nodup_unlinkChild hn1 (k := e.ptr)
  -- the two grafts
  generalize he' : ({ e.drop with dName := switchedName d.dName e.dName } : Dentry) = e'
  generalize hd' : ({ d.rehash with dName := e.dName } : Dentry) = d'
  have hptr : e'.ptr = e.ptr ∧ d'.ptr = d.ptr := ⟨by rw [← he']; rfl, by rw [← hd']; rfl⟩
  generalize ht2 : (t.unlinkChild d.ptr).unlinkChild e.ptr = t₂ at *
  have hperm3 := nodes_listAdd hn2 hp2 e' (t.subdirs e.ptr)
  have hptrs3 : (t₂.listAdd p (.cons e' (t.subdirs e.ptr) .nil)).ptrs.Perm
      (t.unlinkChild d.ptr).ptrs := by
    refine (Forest.keys_graft hn2 hp2).trans ?_
    simp only [Forest.keys, List.append_nil, List.cons_append, hptr.1]
    exact hptrs1.symm
  have hperm4 := nodes_listAdd (hptrs3.nodup_iff.mpr hn1) (hptrs3.mem_iff.mpr hq1) d'
    (t.subdirs d.ptr)
  have hmove : t.dMove d.ptr e.ptr = (t₂.listAdd p (.cons e' (t.subdirs e.ptr) .nil)).listAdd q
      (.cons d' (t.subdirs d.ptr) .nil) := by
    unfold dMove
    rw [node?_of_mem hn hd, node?_of_mem hn he]
    simp only [he', hd', ht2]
  rw [hptr.1] at hperm3
  rw [hptr.2] at hperm4
  refine ⟨Forest.flat Dentry.ptr (some d.ptr) (t.subdirs d.ptr) ++
    (Forest.flat Dentry.ptr (some e.ptr) (t.subdirs e.ptr) ++ t₂.nodes), ?_, ?_⟩
  · refine hperm.trans (List.Perm.cons _ ?_)
    exact (hperm1.append_left _).trans List.perm_middle
  · rw [hmove]
    refine hperm4.trans (List.Perm.cons _ ?_)
    exact (hperm3.append_left _).trans List.perm_middle

/-- An exchange of places keeps the account: each of the two parents loses a
child and gets one. -/
theorem Sound.swap (h : t.Sound root ext pin) {d' e' : Dentry}
    {rest : List (Option Ptr × Dentry)}
    (ht : t.nodes.Perm ((some p, d) :: (some q, e) :: rest))
    (ht' : t'.nodes.Perm ((some q, d') :: (some p, e') :: rest))
    (hd : d'.ptr = d.ptr ∧ d'.dCount = d.dCount ∧ d'.dOp = d.dOp)
    (he : e'.ptr = e.ptr ∧ e'.dCount = e.dCount ∧ e'.dOp = e.dOp) : t'.Sound root ext pin := by
  have hkids : ∀ k, t'.kids k = t.kids k := by
    intro k
    rw [kids, kids, ht.countP_eq, ht'.countP_eq]
    simp only [List.countP_cons]
    omega
  have hptrs : t'.ptrs.Perm t.ptrs := by
    have h1 := ht.map fun x => x.2.ptr
    have h2 := ht'.map fun x => x.2.ptr
    simp only [List.map_cons, nodes, Forest.map_key_flat, hd.1, he.1] at h1 h2
    exact h2.trans h1.symm
  -- a node of the new tree is an old one, or one of the two that changed places
  have hmem : ∀ x ∈ t'.nodes, x ∈ t.nodes ∨ x = (some q, d') ∨ x = (some p, e') := by
    intro x hx
    have h1 := ht'.mem_iff.mp hx
    have h2 := ht.mem_iff (a := x)
    simp only [List.mem_cons] at h1 h2
    tauto
  have hdm : (some p, d) ∈ t.nodes := ht.mem_iff.mpr (by simp)
  have hem : (some q, e) ∈ t.nodes := ht.mem_iff.mpr (by simp)
  refine ⟨hptrs.nodup_iff.mpr h.nodup, hptrs.mem_iff.mpr h.root_mem, ?_, ?_, ?_, ?_,
    h.pin_root, ?_⟩
  · intro x hx hnone
    rcases hmem x hx with hx | rfl | rfl
    · exact h.top x hx hnone
    · cases hnone
    · cases hnone
  · intro r c hx
    rcases hmem _ hx with hx | hx | hx
    · exact h.op r c hx
    · cases hx
      rw [hd.2.2]
      exact h.op p d hdm
    · cases hx
      rw [he.2.2]
      exact h.op q e hem
  · intro x hx
    rw [hkids]
    rcases hmem x hx with hx | rfl | rfl
    · exact h.count x hx
    · simp only [hd]
      exact h.count _ hdm
    · simp only [he]
      exact h.count _ hem
  · intro x hx
    rcases hmem x hx with hx | rfl | rfl
    · exact h.pos x hx
    · simp only [hd]
      exact h.pos _ hdm
    · simp only [he]
      exact h.pos _ hem
  · intro r c hx
    rcases hmem _ hx with hx | hx | hx
    · exact h.pin_le r c hx
    · cases hx
      rw [hd.1]
      exact h.pin_le p d hdm
    · cases hx
      rw [he.1]
      exact h.pin_le q e hem

/-- The exchange of places that `d_move` makes, for the account and for the
bare tree. -/
theorem Sound.dMove (h : t.Sound root ext pin) (hd : (some p, d) ∈ t.nodes)
    (he : (some q, e) ∈ t.nodes) (hde : d.ptr ≠ e.ptr) (h0 : t.kids e.ptr = 0) (hqd : q ≠ d.ptr)
    (hq : q ∉ Forest.keys Dentry.ptr (t.subdirs d.ptr)) :
    (t.dMove d.ptr e.ptr).Sound root ext pin ∧
      (t.dMove d.ptr e.ptr).kids e.ptr = 0 ∧
      ∃ rest, t.bare.Perm (strip (some p, d) :: strip (some q, e) :: rest) ∧
        (t.dMove d.ptr e.ptr).bare.Perm
          (strip (some q, { d.rehash with dName := e.dName }) ::
            strip (some p, { e.drop with dName := switchedName d.dName e.dName }) :: rest) := by
  have hpe : p ≠ e.ptr := fun heq => Nat.ne_of_gt (kids_pos_of_mem (heq ▸ hd)) h0
  have hp : p ∉ Forest.keys Dentry.ptr (t.subdirs e.ptr) := by
    rw [subdirs_eq_nil h.nodup h0]
    exact List.not_mem_nil
  obtain ⟨rest, h1, h2⟩ := nodes_dMove h.nodup hd he hde hpe hp hqd hq
  refine ⟨h.swap h1 h2 ⟨rfl, rfl, rfl⟩ ⟨rfl, rfl, rfl⟩, ?_, rest.map strip, h1.map strip,
    h2.map strip⟩
  rw [kids, h1.countP_eq] at h0
  rw [kids, h2.countP_eq]
  simp only [List.countP_cons] at h0 ⊢
  omega

theorem keys_subdirs_update {f : Dentry → Dentry} (hf : Keeps f) (j : Ptr) :
    Forest.keys Dentry.ptr ((t.update k f).subdirs j) = Forest.keys Dentry.ptr (t.subdirs j) := by
  rw [subdirs_update hf]
  exact ptrs_update hf

/-- `d_move` of a dentry whose target is held once more than afterwards, and
the `dput` after it. -/
theorem Sound.dMove_dput (h : t.Sound root (bump (bump ext e.ptr) e.ptr) pin)
    (hd : (some p, d) ∈ t.nodes) (he : (some q, e) ∈ t.nodes) (hde : d.ptr ≠ e.ptr)
    (h0 : t.kids e.ptr = 0) (hqd : q ≠ d.ptr)
    (hq : q ∉ Forest.keys Dentry.ptr (t.subdirs d.ptr)) :
    ((t.dMove d.ptr e.ptr).dput e.ptr).Sound root (bump ext e.ptr) pin ∧
      ((t.dMove d.ptr e.ptr).dput e.ptr).kids e.ptr = 0 ∧
      ((t.dMove d.ptr e.ptr).dput e.ptr).bare = (t.dMove d.ptr e.ptr).bare := by
  obtain ⟨hs, hk, rest, -, hperm⟩ := h.dMove hd he hde h0 hqd hq
  have hem : e.ptr ∈ (t.dMove d.ptr e.ptr).ptrs := by
    rw [← map_ptr_bare, (hperm.map _).mem_iff]
    simp [strip, Dentry.drop, Dentry.withCount]
  have hbare := hs.bare_dput hem (by simp only [bump, if_true]; omega)
  refine ⟨(hs.dput hem).1, ?_, hbare⟩
  rw [kids_eq_countP_bare, hbare, ← kids_eq_countP_bare]
  exact hk

/-! ## `d_ancestor` -/

theorem mem_nodes_of_mem_subdirs (hn : t.ptrs.Nodup) (hd : (some p, d) ∈ t.nodes)
    (hx : x ∈ Forest.flat Dentry.ptr (some d.ptr) (t.subdirs d.ptr)) : x ∈ t.nodes :=
  (Forest.flat_erase hn hd).mem_iff.mpr (List.mem_cons_of_mem _ (List.mem_append_left _ hx))

/-- The trees of two siblings are disjoint. -/
theorem eq_of_below (hn : t.ptrs.Nodup) (hd : (some p, d) ∈ t.nodes) (he : (some p, e) ∈ t.nodes)
    (hqd : q = d.ptr ∨ q ∈ Forest.keys Dentry.ptr (t.subdirs d.ptr))
    (hqe : q = e.ptr ∨ q ∈ Forest.keys Dentry.ptr (t.subdirs e.ptr)) : e.ptr = d.ptr := by
  have hsnd : ∀ {c : Dentry}, (some p, c) ∈ t.nodes → c ∈ t.nodes.map fun x => x.2 :=
    fun h => List.mem_map.mpr ⟨_, h, rfl⟩
  by_contra hne
  -- climbing from `q` to `e` either passes `d` or ends below `d`
  have hclimb : d.ptr ∈ Forest.keys Dentry.ptr (t.subdirs e.ptr) ∨
      (e.ptr = d.ptr ∨ e.ptr ∈ Forest.keys Dentry.ptr (t.subdirs d.ptr)) := by
    rcases hqe with rfl | hqe
    · exact .inr hqd
    · refine Forest.climb (D := fun k => k = d.ptr ∨ k ∈ Forest.keys Dentry.ptr
        (t.subdirs d.ptr)) ?_ hqe hqd
      rintro x hx (hxd | hxd)
      · exact .inl hxd
      · refine .inr fun r hr => ?_
        have hxm := mem_nodes_of_mem_subdirs hn he hx
        exact parent_below hn (hsnd hd) (e := x.2) (by rw [← hr]; exact hxm) hxd
  rcases hclimb with h | h | h
  · rcases parent_below hn (hsnd he) hd h with h | h
    · exact parent_ne_ptr hn he h
    · exact parent_not_mem_subdirs hn he h
  · exact hne h
  · rcases parent_below hn (hsnd hd) he h with h | h
    · exact parent_ne_ptr hn hd h
    · exact parent_not_mem_subdirs hn hd h

/-- `d_ancestor` finds the child under which a dentry lies. -/
theorem dAncestor_eq (hn : t.ptrs.Nodup) (hd : (some p, d) ∈ t.nodes)
    (hq : q = d.ptr ∨ q ∈ Forest.keys Dentry.ptr (t.subdirs d.ptr)) :
    t.dAncestor p q = some d.ptr := by
  unfold dAncestor
  cases hf : (t.subdirs p).roots.find? fun c =>
      c.ptr == q || decide (q ∈ Forest.keys Dentry.ptr (t.subdirs c.ptr)) with
  | none =>
      have := List.find?_eq_none.mp hf d ((mem_subdirs_iff hn).mpr hd)
      simp only [Bool.or_eq_true, beq_iff_eq, decide_eq_true_eq] at this
      exact absurd (hq.imp Eq.symm id) this
  | some c =>
      have hc := (mem_subdirs_iff hn).mp (List.mem_of_find?_eq_some hf)
      have htest := List.find?_some hf
      simp only [Bool.or_eq_true, beq_iff_eq, decide_eq_true_eq] at htest
      rw [Option.map_some, eq_of_below hn hd hc hq (htest.imp Eq.symm id)]

/-- A dentry above `p` is not above it the other way round. -/
theorem dAncestor_eq_none (hn : t.ptrs.Nodup) (he : (some q, e) ∈ t.nodes)
    (hp : p = e.ptr ∨ p ∈ Forest.keys Dentry.ptr (t.subdirs e.ptr)) : t.dAncestor p q = none := by
  have heq := mem_keys_subdirs hn he
  have hpq : p ∈ Forest.keys Dentry.ptr (t.subdirs q) := by
    rcases hp with rfl | hp
    · exact heq
    · exact Forest.keys_sub_trans hn heq hp
  unfold dAncestor
  rw [Option.map_eq_none_iff, List.find?_eq_none]
  intro c hc htest
  have hcq : c.ptr ∈ Forest.keys Dentry.ptr (t.subdirs q) :=
    Forest.keys_sub_trans hn hpq (Forest.mem_keys_of_mem_roots hc)
  simp only [Bool.or_eq_true, beq_iff_eq, decide_eq_true_eq] at htest
  refine Forest.not_mem_keys_sub hn (k := q) (t := t) ?_
  rcases htest with rfl | hqc
  · exact hcq
  · exact Forest.keys_sub_trans hn hcq hqc

/-! ## giving references back -/

/-- The account with the pin of `k` taken for a reference from outside. -/
theorem Sound.unpin (h : t.Sound root ext pin) (hr : k ≠ root) (hk : pin k = 1) :
    t.Sound root (bump ext k) (Function.update pin k 0) where
  nodup := h.nodup
  root_mem := h.root_mem
  top := h.top
  op := h.op
  count x hx := by
    rw [h.count x hx]
    by_cases hxk : x.2.ptr = k
    · simp only [bump, hxk, hk, if_true, Function.update_self]
      omega
    · simp [bump, hxk]
  pos := h.pos
  pin_root := by rw [Function.update_of_ne (Ne.symm hr), h.pin_root]
  pin_le p d hd := by
    by_cases hdk : d.ptr = k
    · simp [hdk]
    · rw [Function.update_of_ne hdk]
      exact h.pin_le p d hd

/-- Nothing pinned was lost on the way from `t` to `t'`. -/
def Shrunk (pin : Ptr → Nat) (t' t : Dcache) : Prop :=
  Within t' t ∧ ∀ x ∈ t.nodes, 1 ≤ pin x.2.ptr → t'.Has x

theorem Shrunk.trans (h1 : Shrunk pin t'' t') (h2 : Shrunk pin t' t) : Shrunk pin t'' t := by
  refine ⟨h1.1.trans h2.1, fun x hx hp => ?_⟩
  obtain ⟨c, hc⟩ := h2.2 x hx hp
  obtain ⟨b, hb⟩ := h1.2 _ hc hp
  exact ⟨b, hb⟩

theorem Shrunk.mem_ptrs (h : Shrunk pin t' t) (hk : k ∈ t.ptrs) (hp : 1 ≤ pin k) :
    k ∈ t'.ptrs := by
  obtain ⟨x, hx, rfl⟩ := Forest.exists_mem_flat hk none
  obtain ⟨c, hc⟩ := h.2 x hx hp
  exact mem_ptrs_of_mem (x := (x.1, x.2.withCount c)) hc

theorem Sound.dput_shrunk (h : t.Sound root (bump ext k) pin) (hk : k ∈ t.ptrs) :
    (t.dput k).Sound root ext pin ∧ Shrunk pin (t.dput k) t := by
  obtain ⟨h1, h2, h3⟩ := h.dput hk
  exact ⟨h1, h2, h3⟩

/-- The four references that a rename holds, given back: the leaf `e`, which
nothing else holds, goes. -/
theorem Sound.dput_four {e d q p : Ptr}
    (h : t.Sound root (bump (bump (bump (bump ext p) q) d) e) pin) (he0 : pin e = 0)
    (hext : ext e = 0) (hkids : t.kids e = 0) (hem : e ∈ t.ptrs) (hdm : d ∈ t.ptrs)
    (hqm : q ∈ t.ptrs) (hpm : p ∈ t.ptrs) (hd : 1 ≤ pin d) (hq : 1 ≤ pin q) (hp : 1 ≤ pin p) :
    ((((t.dput e).dput d).dput q).dput p).Sound root ext pin ∧
      Shrunk pin ((((t.dput e).dput d).dput q).dput p) t ∧
      e ∉ ((((t.dput e).dput d).dput q).dput p).ptrs := by
  obtain ⟨h1, s1⟩ := h.dput_shrunk hem
  obtain ⟨h2, s2⟩ := h1.dput_shrunk (s1.mem_ptrs hdm hd)
  have s12 := s2.trans s1
  obtain ⟨h3, s3⟩ := h2.dput_shrunk (s12.mem_ptrs hqm hq)
  have s123 := s3.trans s12
  obtain ⟨h4, s4⟩ := h3.dput_shrunk (s123.mem_ptrs hpm hp)
  have s1234 := s4.trans s123
  refine ⟨h4, s1234, fun hmem => ?_⟩
  -- were it still there, its count would be 0
  obtain ⟨x, hx, hxe⟩ := Forest.exists_mem_flat hmem none
  have hcount := h4.count x hx
  have hpos := h4.pos x hx
  have hk0 : ((((t.dput e).dput d).dput q).dput p).kids e = 0 := by
    rw [kids, List.countP_eq_zero] at hkids ⊢
    intro y hy
    obtain ⟨c, hc⟩ := s1234.1 y hy
    exact hkids (y.1, y.2.withCount c) hc
  rw [hxe, hk0, hext, he0] at hcount
  omega

/-- Where everything but `e` is pinned, only `e` goes. -/
theorem bare_of_shrunk {e : Ptr} {y : Option Ptr × Dentry} {rest : List (Option Ptr × Dentry)}
    (hn : t.ptrs.Nodup) (hn' : t'.ptrs.Nodup) (hs : Shrunk pin t' t) (he : e ∉ t'.ptrs)
    (hall : ∀ k ∈ t.ptrs, k ≠ e → 1 ≤ pin k) (hye : y.2.ptr = e)
    (hperm : t.bare.Perm (y :: rest)) : t'.bare.Perm rest := by
  have hnd : ∀ {s : Dcache}, s.ptrs.Nodup → s.bare.Nodup := fun {s} h => by
    rw [← map_ptr_bare] at h
    exact List.Nodup.of_map _ h
  have hyr : ∀ z ∈ rest, z.2.ptr ≠ e := by
    rw [← map_ptr_bare, (hperm.map _).nodup_iff, List.map_cons, List.nodup_cons] at hn
    intro z hz heq
    exact hn.1 (List.mem_map.mpr ⟨z, hz, heq.trans hye.symm⟩)
  rw [List.perm_ext_iff_of_nodup (hnd hn')
    (List.nodup_cons.mp (hperm.nodup_iff.mp (hnd hn))).2]
  intro z
  constructor
  · intro hz
    obtain ⟨x, hx, rfl⟩ := exists_of_mem_bare hz
    have hmem := has_iff_mem_bare.mp (hs.1 x hx)
    refine (List.mem_cons.mp (hperm.mem_iff.mp hmem)).resolve_left fun heq => he ?_
    have hptr : x.2.ptr = e := by rw [← hye, ← heq]; rfl
    rw [← hptr]
    exact mem_ptrs_of_mem hx
  · intro hz
    obtain ⟨x, hx, rfl⟩ := exists_of_mem_bare (hperm.mem_iff.mpr (List.mem_cons_of_mem _ hz))
    exact has_iff_mem_bare.mp (hs.2 x hx (hall _ (mem_ptrs_of_mem hx) (hyr (strip x) hz)))

end Dcache

end Wjfs
