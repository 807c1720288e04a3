import Wjfs.Dcache.Move

/-!
# Wjfs.Dcache.Fade

What the primitives of the tree can take away, with no account of references.

`Fades` holds between a tree and one in which dentries are gone, have lost
their hash or count, or, if they are no directories, their inode; what is left
is where it was.  Every primitive but `list_add` and `d_move` only does that,
so a statement about where dentries are survives all of them.
-/

namespace Wjfs

namespace Dcache

variable {t t' t'' : Dcache} {k p q : Ptr} {d e : Dentry} {f : Dentry → Dentry}
  {dir : Ptr → Bool} {x y : Option Ptr × Dentry}

/-- Two hashed dentries of one directory have two names. -/
def Distinct (t : Dcache) : Prop :=
  ∀ p d e, (some p, d) ∈ t.nodes → (some p, e) ∈ t.nodes → d.dUnhashed = false →
    e.dUnhashed = false → d.dName = e.dName → d.ptr = e.ptr

/-- Every dentry is held by somebody, is killed by its last `dput`, and is
found by its name if it is hashed. -/
structure Held (t : Dcache) : Prop where
  nodup : t.ptrs.Nodup
  pos : ∀ x ∈ t.nodes, 1 ≤ x.2.dCount
  dies : ∀ x ∈ t.nodes, x.2.dOp = true ∨ x.2.dUnhashed = true
  distinct : t.Distinct

/-- What is left of a dentry: the same address, the same name if it is still
hashed, and the same inode unless it was no directory.  `dir` tells which
inodes are directories. -/
structure Left (dir : Ptr → Bool) (d d' : Dentry) : Prop where
  ptr : d'.ptr = d.ptr
  mounted : d'.dMounted = d.dMounted
  name : d'.dUnhashed = false → d.dUnhashed = false ∧ d'.dName = d.dName
  inode : d'.dInode = d.dInode ∨ d'.dInode = none ∧ ∀ i, d.dInode = some i → dir i = false

theorem Left.refl (dir : Ptr → Bool) (d : Dentry) : Left dir d d :=
  ⟨rfl, rfl, fun h => ⟨h, rfl⟩, .inl rfl⟩

theorem Left.trans {d'' d' : Dentry} (h : Left dir d d') (h' : Left dir d' d'') :
    Left dir d d'' := by
  refine ⟨h'.ptr.trans h.ptr, h'.mounted.trans h.mounted, fun hu => ?_, ?_⟩
  · obtain ⟨hu', hname'⟩ := h'.name hu
    obtain ⟨hu, hname⟩ := h.name hu'
    exact ⟨hu, hname'.trans hname⟩
  · rcases h.inode with h1 | ⟨h1, hdir⟩
    · rw [← h1]
      exact h'.inode
    · refine .inr ⟨?_, hdir⟩
      rcases h'.inode with h2 | ⟨h2, -⟩
      · exact h2.trans h1
      · exact h2

/-- What is left of dentries with distinct names has distinct names. -/
theorem Distinct.of_origin (ht : t.Distinct)
    (horigin : ∀ y ∈ t'.nodes, ∃ x ∈ t.nodes, x.1 = y.1 ∧ Left dir x.2 y.2) : t'.Distinct := by
  intro p d e hd he hdu heu hname
  obtain ⟨⟨_, d₀⟩, hd₀, rfl, hleft⟩ := horigin _ hd
  obtain ⟨⟨_, e₀⟩, he₀, rfl, hleft'⟩ := horigin _ he
  obtain ⟨hdu₀, hdn⟩ := hleft.name hdu
  obtain ⟨heu₀, hen⟩ := hleft'.name heu
  have hptr := ht _ d₀ e₀ hd₀ he₀ hdu₀ heu₀ (hdn.symm.trans (hname.trans hen))
  exact hleft.ptr.trans (hptr.trans hleft'.ptr.symm)

/-- `t'` is what is left of `t`. -/
structure Fades (dir : Ptr → Bool) (t t' : Dcache) : Prop where
  ptrs : t'.ptrs.Sublist t.ptrs
  origin : ∀ y ∈ t'.nodes, ∃ x ∈ t.nodes, x.1 = y.1 ∧ Left dir x.2 y.2
  held : t'.Held

namespace Fades

theorem refl (ht : t.Held) : Fades dir t t :=
  ⟨List.Sublist.refl _, fun y hy => ⟨y, hy, rfl, .refl dir y.2⟩, ht⟩

theorem trans (h : Fades dir t t') (h' : Fades dir t' t'') : Fades dir t t'' := by
  refine ⟨h'.ptrs.trans h.ptrs, fun z hz => ?_, h'.held⟩
  obtain ⟨y, hy, hyz, hleft'⟩ := h'.origin z hz
  obtain ⟨x, hx, hxy, hleft⟩ := h.origin y hy
  exact ⟨x, hx, hxy.trans hyz, hleft.trans hleft'⟩

/-- A rewriting of one dentry that leaves it in place and held. -/
theorem update (ht : t.Held) (hf : Keeps f) (hleft : ∀ x ∈ t.nodes, x.2.ptr = k →
    Left dir x.2 (f x.2) ∧ 1 ≤ (f x.2).dCount ∧ ((f x.2).dOp = true ∨ (f x.2).dUnhashed = true)) :
    Fades dir t (t.update k f) := by
  have hmem : ∀ y ∈ (t.update k f).nodes, ∃ x ∈ t.nodes,
      y = (x.1, if x.2.ptr = k then f x.2 else x.2) := fun y hy => by
    rw [nodes_update hf] at hy
    obtain ⟨x, hx, hxy⟩ := List.mem_map.mp hy
    exact ⟨x, hx, hxy.symm⟩
  have hheld : ∀ y ∈ (t.update k f).nodes,
      1 ≤ y.2.dCount ∧ (y.2.dOp = true ∨ y.2.dUnhashed = true) := fun y hy => by
    obtain ⟨x, hx, rfl⟩ := hmem y hy
    by_cases hk : x.2.ptr = k
    · rw [if_pos hk]
      exact (hleft x hx hk).2
    · rw [if_neg hk]
      exact ⟨ht.pos x hx, ht.dies x hx⟩
  have horigin : ∀ y ∈ (t.update k f).nodes, ∃ x ∈ t.nodes, x.1 = y.1 ∧ Left dir x.2 y.2 :=
    fun y hy => by
      obtain ⟨x, hx, rfl⟩ := hmem y hy
      refine ⟨x, hx, rfl, ?_⟩
      by_cases hk : x.2.ptr = k
      · rw [if_pos hk]
        exact (hleft x hx hk).1
      · rw [if_neg hk]
        exact .refl dir x.2
  exact ⟨by rw [ptrs_update hf], horigin, by rw [ptrs_update hf]; exact ht.nodup,
    fun y hy => (hheld y hy).1, fun y hy => (hheld y hy).2, ht.distinct.of_origin horigin⟩

theorem dget (ht : t.Held) (k : Ptr) : Fades dir t (t.dget k) := by
  refine update ht keeps_get fun x hx _ => ⟨⟨rfl, rfl, fun h => ⟨h, rfl⟩, .inl rfl⟩, ?_,
    ht.dies x hx⟩
  have hpos := ht.pos x hx
  simp only [Dentry.get]
  omega

theorem unlinkChild (ht : t.Held) (k : Ptr) : Fades dir t (t.unlinkChild k) := by
  have hsub : ∀ y ∈ (t.unlinkChild k).nodes, y ∈ t.nodes := fun y hy =>
    (Forest.flat_erase_sublist none t).subset hy
  exact ⟨Forest.keys_erase_sublist, fun y hy => ⟨y, hsub y hy, rfl, .refl dir y.2⟩,
    nodup_unlinkChild ht.nodup, fun y hy => ht.pos y (hsub y hy),
    fun y hy => ht.dies y (hsub y hy),
    fun p d e hd he => ht.distinct p d e (hsub _ hd) (hsub _ he)⟩

/-- The loop of `dput` kills what it takes the last reference from. -/
theorem dputLoop (ht : t.Held) (fuel : Nat) (k : Ptr) : Fades dir t (dputLoop fuel t k) := by
  induction fuel generalizing t k with
  | zero => exact refl ht
  | succ fuel ih =>
      unfold Dcache.dputLoop
      cases hk : t.node? k with
      | none => exact refl ht
      | some x =>
          have hx := mem_nodes_of_node? hk
          simp only
          by_cases hc : x.2.dCount - 1 ≠ 0
          · rw [if_pos hc]
            refine update ht keeps_dec fun y hy hyk => ⟨⟨rfl, rfl, fun h => ⟨h, rfl⟩, .inl rfl⟩, ?_,
              ht.dies y hy⟩
            obtain rfl : y = x :=
              Forest.eq_of_mem_flat ht.nodup hy hx (hyk.trans (ptr_of_node? hk).symm)
            have hpos := ht.pos y hx
            simp only [Dentry.dec]
            omega
          · rw [if_neg hc, if_pos (by simpa using ht.dies x hx)]
            have hcut : Fades dir t (t.unlinkChild k) := unlinkChild ht k
            cases x.1 with
            | none => exact hcut
            | some p => exact hcut.trans (ih hcut.held p)

theorem dput (ht : t.Held) (k : Ptr) : Fades dir t (t.dput k) := dputLoop ht _ k

end Fades

/-! ## counts -/

/-- At least `c` references are held to the dentry at `k`. -/
def AtLeast (t : Dcache) (k : Ptr) (c : Int) : Prop := ∀ x ∈ t.nodes, x.2.ptr = k → c ≤ x.2.dCount

variable {c : Int}

theorem AtLeast.update (h : t.AtLeast k c) (hf : Keeps f) {b : Int}
    (hb : ∀ d, (f d).dCount = d.dCount + b) : (t.update k f).AtLeast k (c + b) := by
  intro y hy hyk
  rw [nodes_update hf] at hy
  obtain ⟨x, hx, rfl⟩ := List.mem_map.mp hy
  have hxk : x.2.ptr = k := by
    by_contra hne
    exact hne (by simpa only [if_neg hne] using hyk)
  have hc := h x hx hxk
  simp only [if_pos hxk, hb]
  omega

theorem AtLeast.dget (h : t.AtLeast k c) : (t.dget k).AtLeast k (c + 1) :=
  h.update keeps_get fun _ => rfl

/-- Dropping one of several references. -/
theorem AtLeast.dput (h : t.AtLeast k c) (hc : 2 ≤ c) (hk : k ∈ t.ptrs) :
    (t.dput k).AtLeast k (c + -1) := by
  obtain ⟨x, hx⟩ := Option.ne_none_iff_exists'.mp fun hnone => node?_eq_none_iff.mp hnone hk
  have hcount := h x (mem_nodes_of_node? hx) (ptr_of_node? hx)
  rw [dput_of_ne_one hx (by omega)]
  exact h.update keeps_dec fun d => rfl

/-- The last reference: the dentry is gone. -/
theorem not_mem_ptrs_dput (ht : t.Held) (hd : (some p, d) ∈ t.nodes) (h1 : d.dCount = 1) :
    d.ptr ∉ (t.dput d.ptr).ptrs := by
  have hcut : Fades (fun _ => true) t (t.unlinkChild d.ptr) := .unlinkChild ht d.ptr
  have hptrs := ((ptrs_perm_unlinkChild ht.nodup hd).nodup_iff.mp ht.nodup)
  rw [dput_last (node?_of_mem ht.nodup hd) h1 (ht.dies _ hd)]
  intro hmem
  have hcut' : Fades (fun _ => true) _ _ := .dput hcut.held p
  exact (List.nodup_cons.mp hptrs).1 (List.mem_append_right _ (hcut'.ptrs.subset hmem))

/-! ## adding and moving -/

/-- A new leaf, with a name that no other has if it is hashed. -/
theorem Held.plant (ht : t.Held) (hp : p ∈ t.ptrs) (hd : d.ptr ∉ t.ptrs) (hc : 1 ≤ d.dCount)
    (hdies : d.dOp = true ∨ d.dUnhashed = true)
    (hfree : d.dUnhashed = false → t.dLookup p d.dName = none) : (t.plant p d).Held := by
  have hfade : Fades (fun _ => true) t (t.dget p) := .dget ht p
  have hget : (t.dget p).Held := hfade.held
  have hother : ∀ {e}, (some p, e) ∈ (t.dget p).nodes → d.dUnhashed = false →
      e.dUnhashed = false → e.dName ≠ d.dName := fun {e} he hdu heu hname => by
    obtain ⟨⟨_, c⟩, hc, rfl, hleft⟩ := hfade.origin _ he
    obtain ⟨hcu, hcn⟩ := hleft.name heu
    have hnone := List.find?_eq_none.mp (hfree hdu) c ((mem_subdirs_iff ht.nodup).mpr hc)
    exact absurd (hcn.symm.trans hname) (by simpa [show c.dUnhashed = false from hcu] using hnone)
  refine ⟨nodup_plant ht.nodup hp hd, fun x hx => ?_, fun x hx => ?_,
    fun p' a b ha hb hau hbu hname => ?_⟩
  · rcases (mem_nodes_plant ht.nodup hp).mp hx with rfl | hx
    · exact hc
    · exact hget.pos x hx
  · rcases (mem_nodes_plant ht.nodup hp).mp hx with rfl | hx
    · exact hdies
    · exact hget.dies x hx
  · rcases (mem_nodes_plant ht.nodup hp).mp ha with heq | ha
    · cases heq
      rcases (mem_nodes_plant ht.nodup hp).mp hb with heq | hb
      · cases heq
        rfl
      · exact absurd hname.symm (hother hb hau hbu)
    · rcases (mem_nodes_plant ht.nodup hp).mp hb with heq | hb
      · cases heq
        exact absurd hname (hother ha hbu hau)
      · exact hget.distinct p' a b ha hb hau hbu hname

/-- `d` in directory `p` and `e` in directory `q` may change places: they are
two, and neither directory lies below the other dentry. -/
structure Apart (t : Dcache) (p q d e : Ptr) : Prop where
  ne : d ≠ e
  old_ne : p ≠ e
  old : p ∉ Forest.keys Dentry.ptr (t.subdirs e)
  new_ne : q ≠ d
  new : q ∉ Forest.keys Dentry.ptr (t.subdirs d)

theorem Apart.update {a b : Ptr} (h : t.Apart p q a b) (hf : Keeps f) :
    (t.update k f).Apart p q a b := by
  refine ⟨h.ne, h.old_ne, ?_, h.new_ne, ?_⟩
  · rw [keys_subdirs_update hf]
    exact h.old
  · rw [keys_subdirs_update hf]
    exact h.new

/-- The target of a move as it is afterwards. -/
theorem mem_nodes_dMove (hn : t.ptrs.Nodup) (hd : (some p, d) ∈ t.nodes)
    (he : (some q, e) ∈ t.nodes) (ha : t.Apart p q d.ptr e.ptr) :
    (some p, { e.drop with dName := switchedName d.dName e.dName }) ∈
      (t.dMove d.ptr e.ptr).nodes := by
  obtain ⟨rest, -, h2⟩ := nodes_dMove hn hd he ha.ne ha.old_ne ha.old ha.new_ne ha.new
  exact h2.mem_iff.mpr (List.mem_cons_of_mem _ List.mem_cons_self)

/-- Two dentries that change places, the second one losing its hash. -/
theorem Held.dMove (ht : t.Held) (hd : (some p, d) ∈ t.nodes) (he : (some q, e) ∈ t.nodes)
    (hop : d.dOp = true) (hhash : e.dUnhashed = false) (ha : t.Apart p q d.ptr e.ptr) :
    (t.dMove d.ptr e.ptr).Held ∧ (t.dMove d.ptr e.ptr).ptrs.Perm t.ptrs ∧
      ∀ y ∈ (t.dMove d.ptr e.ptr).nodes,
      y = (some q, { d.rehash with dName := e.dName }) ∨
      y = (some p, { e.drop with dName := switchedName d.dName e.dName }) ∨
      y ∈ t.nodes ∧ y.2.ptr ≠ d.ptr ∧ y.2.ptr ≠ e.ptr := by
  obtain ⟨rest, h1, h2⟩ := nodes_dMove ht.nodup hd he ha.ne ha.old_ne ha.old ha.new_ne ha.new
  have hptrs : (t.dMove d.ptr e.ptr).ptrs.Perm t.ptrs := by
    have hp1 := h1.map fun x => x.2.ptr
    have hp2 := h2.map fun x => x.2.ptr
    simp only [List.map_cons, nodes, Forest.map_key_flat] at hp1 hp2
    exact hp2.trans hp1.symm
  have hnd : (d.ptr :: e.ptr :: rest.map fun x => x.2.ptr).Nodup := by
    have hp1 := h1.map fun x => x.2.ptr
    simp only [List.map_cons, nodes, Forest.map_key_flat] at hp1
    exact hp1.nodup_iff.mp ht.nodup
  rw [List.nodup_cons, List.mem_cons, not_or, List.nodup_cons] at hnd
  have hmem : ∀ y ∈ (t.dMove d.ptr e.ptr).nodes,
      y = (some q, { d.rehash with dName := e.dName }) ∨
      y = (some p, { e.drop with dName := switchedName d.dName e.dName }) ∨
      y ∈ t.nodes ∧ y.2.ptr ≠ d.ptr ∧ y.2.ptr ≠ e.ptr := fun y hy => by
    have hy' := h2.mem_iff.mp hy
    rw [List.mem_cons, List.mem_cons] at hy'
    refine hy'.imp_right (Or.imp_right fun hr => ⟨?_, fun heq => ?_, fun heq => ?_⟩)
    · exact h1.mem_iff.mpr (List.mem_cons_of_mem _ (List.mem_cons_of_mem _ hr))
    · exact hnd.1.2 (List.mem_map.mpr ⟨y, hr, heq⟩)
    · exact hnd.2.1 (List.mem_map.mpr ⟨y, hr, heq⟩)
  have hother : ∀ {c}, (some q, c) ∈ t.nodes → c.ptr ≠ e.ptr → c.dUnhashed = false →
      c.dName ≠ e.dName := fun hc hne hcu hname => hne (ht.distinct q _ e hc he hcu hhash hname)
  refine ⟨⟨hptrs.nodup_iff.mpr ht.nodup, fun y hy => ?_, fun y hy => ?_,
    fun p' a b ha hb hau hbu hname => ?_⟩, hptrs, hmem⟩
  · rcases hmem y hy with rfl | rfl | ⟨hy, -⟩
    · exact ht.pos (some p, d) hd
    · exact ht.pos (some q, e) he
    · exact ht.pos y hy
  · rcases hmem y hy with rfl | rfl | ⟨hy, -⟩
    · exact .inl hop
    · exact .inr rfl
    · exact ht.dies y hy
  · rcases hmem _ ha with heq | heq | ⟨ha, -, hane⟩
    · cases heq
      rcases hmem _ hb with heq | heq | ⟨hb, -, hbne⟩
      · cases heq
        rfl
      · cases heq
        cases hbu
      · exact absurd hname.symm (hother hb hbne hbu)
    · cases heq
      cases hau
    · rcases hmem _ hb with heq | heq | ⟨hb, -, -⟩
      · cases heq
        exact absurd hname (hother ha hane hau)
      · cases heq
        cases hbu
      · exact ht.distinct p' a b ha hb hau hbu hname

/-! ## what stays -/

/-- `t'` still has every dentry of `t` that has an inode, where it was, and
with no fewer references. -/
def Covers (t t' : Dcache) : Prop :=
  ∀ x ∈ t.nodes, x.2.dInode.isSome = true →
    ∃ c, x.2.dCount ≤ c ∧ (x.1, x.2.withCount c) ∈ t'.nodes

theorem Covers.trans (h : t.Covers t') (h' : t'.Covers t'') : t.Covers t'' := by
  intro x hx hi
  obtain ⟨c, hc, hmem⟩ := h x hx hi
  obtain ⟨b, hb, hmem'⟩ := h' _ hmem hi
  exact ⟨b, Int.le_trans hc hb, hmem'⟩

theorem covers_dget (t : Dcache) (k : Ptr) : t.Covers (t.dget k) := by
  intro x hx _
  rw [dget, nodes_update keeps_get]
  by_cases hk : x.2.ptr = k
  · exact ⟨x.2.dCount + 1, by omega, List.mem_map.mpr ⟨x, hx, by rw [if_pos hk]; rfl⟩⟩
  · exact ⟨x.2.dCount, Int.le_refl _, List.mem_map.mpr ⟨x, hx, by rw [if_neg hk]; rfl⟩⟩

theorem covers_plant (hn : t.ptrs.Nodup) (hp : p ∈ t.ptrs) (d : Dentry) :
    t.Covers (t.plant p d) := by
  intro x hx hi
  obtain ⟨c, hc, hmem⟩ := covers_dget t p x hx hi
  exact ⟨c, hc, (mem_nodes_plant hn hp).mpr (.inr hmem)⟩

/-- A rewriting of a negative dentry. -/
theorem covers_update (hf : Keeps f) (hneg : ∀ x ∈ t.nodes, x.2.ptr = k → x.2.dInode = none) :
    t.Covers (t.update k f) := by
  intro x hx hi
  have hk : x.2.ptr ≠ k := fun hk => by
    rw [hneg x hx hk] at hi
    cases hi
  rw [nodes_update hf]
  exact ⟨x.2.dCount, Int.le_refl _, List.mem_map.mpr ⟨x, hx, by rw [if_neg hk]; rfl⟩⟩

/-- A reference taken before is given back: nothing goes with it. -/
theorem Covers.dput (h : (t.dget k).Covers t') (hn' : t'.ptrs.Nodup) (ht : t.Held)
    (hx : x ∈ t.nodes) (hxk : x.2.ptr = k) (hi : x.2.dInode.isSome = true) :
    t.Covers (t'.dput k) ∧ (t'.dput k).bare = t'.bare := by
  have hget : ∀ y ∈ t.nodes, (y.1, if y.2.ptr = k then y.2.get else y.2) ∈ (t.dget k).nodes :=
    fun y hy => by
      rw [Dcache.dget, nodes_update keeps_get]
      exact List.mem_map.mpr ⟨y, hy, rfl⟩
  have hxget := hget x hx
  rw [if_pos hxk] at hxget
  obtain ⟨c, hc, hmem⟩ := h _ hxget hi
  have hpos := ht.pos x hx
  have hnode : t'.node? k = some (x.1, x.2.withCount c) := hxk ▸ node?_of_mem hn' hmem
  have hc1 : c ≠ 1 := by
    simp only [Dentry.get] at hc
    omega
  refine ⟨fun y hy hyi => ?_, bare_dput_of_ne_one hnode hc1⟩
  rw [dput_of_ne_one hnode hc1, nodes_update keeps_dec]
  by_cases hyk : y.2.ptr = k
  · obtain rfl : y = x := Forest.eq_of_mem_flat ht.nodup hy hx (hyk.trans hxk.symm)
    simp only [Dentry.get] at hc
    exact ⟨c - 1, by omega, List.mem_map.mpr ⟨_, hmem, by simp [hyk]; rfl⟩⟩
  · have hyget := hget y hy
    rw [if_neg hyk] at hyget
    obtain ⟨b, hb, hmem'⟩ := h _ hyget hyi
    exact ⟨b, hb, List.mem_map.mpr ⟨_, hmem', by simp [hyk]⟩⟩

/-! ## names -/

/-- Every name that `t'` shows, `t` shows. -/
def Shows (t t' : Dcache) : Prop :=
  ∀ p c, (some p, c) ∈ t'.nodes → c.positive = true →
    ∃ b, (some p, b) ∈ t.nodes ∧ b.positive = true ∧ b.dName = c.dName ∧ b.ptr = c.ptr

theorem Shows.trans (h : t.Shows t') (h' : t'.Shows t'') : t.Shows t'' := by
  intro p c hc hpos
  obtain ⟨b, hb, hbpos, hbn, hbp⟩ := h' p c hc hpos
  obtain ⟨a, ha, hapos, han, hap⟩ := h p b hb hbpos
  exact ⟨a, ha, hapos, han.trans hbn, hap.trans hbp⟩

theorem Fades.shows (h : Fades dir t t') : t.Shows t' := by
  intro p c hc hpos
  obtain ⟨⟨_, b⟩, hb, rfl, hleft⟩ := h.origin _ hc
  simp only [Dentry.positive, Bool.and_eq_true, Bool.not_eq_true'] at hpos
  obtain ⟨hu, hname⟩ := hleft.name hpos.2
  have hsome : b.dInode.isSome = true := by
    rcases hleft.inode with heq | ⟨hnone, -⟩
    · exact (congrArg Option.isSome heq).symm.trans hpos.1
    · rw [show c.dInode = none from hnone] at hpos
      cases hpos.1
  refine ⟨b, hb, ?_, hname.symm, hleft.ptr.symm⟩
  simp [Dentry.positive, hsome, show b.dUnhashed = false from hu]

/-- Every name that `t'` shows, `t` shows, but for `name` in directory `q`: that
is the dentry at `k`, which has no other. -/
def Redirected (t t' : Dcache) (q k : Ptr) (name : Bytes) : Prop :=
  ∀ p c, (some p, c) ∈ t'.nodes → c.positive = true →
    p = q ∧ c.dName = name ∧ c.ptr = k ∨
    c.ptr ≠ k ∧ ∃ b, (some p, b) ∈ t.nodes ∧ b.positive = true ∧ b.dName = c.dName ∧ b.ptr = c.ptr

section Redirected

variable {name : Bytes}

/-- Taking things away afterwards. -/
theorem Redirected.shows (h : t.Redirected t' q k name) (hs : t'.Shows t'') :
    t.Redirected t'' q k name := by
  intro p c hc hpos
  obtain ⟨b, hb, hbpos, hbn, hbp⟩ := hs p c hc hpos
  rcases h p b hb hbpos with ⟨rfl, hn, hk⟩ | ⟨hk, a, ha, hapos, han, hap⟩
  · exact .inl ⟨rfl, hbn.symm.trans hn, hbp.symm.trans hk⟩
  · exact .inr ⟨hbp ▸ hk, a, ha, hapos, han.trans hbn, hap.trans hbp⟩

/-- Taking things away before. -/
theorem Shows.redirected (hs : t.Shows t') (h : t'.Redirected t'' q k name) :
    t.Redirected t'' q k name := by
  intro p c hc hpos
  refine (h p c hc hpos).imp_right fun ⟨hk, b, hb, hbpos, hbn, hbp⟩ => ?_
  obtain ⟨a, ha, hapos, han, hap⟩ := hs p b hb hbpos
  exact ⟨hk, a, ha, hapos, han.trans hbn, hap.trans hbp⟩

/-- `d_move` gives the moved dentry the name and the place of the target, which
is not hashed any more. -/
theorem Held.redirected_dMove (ht : t.Held) (hd : (some p, d) ∈ t.nodes)
    (he : (some q, e) ∈ t.nodes) (hop : d.dOp = true) (hhash : e.dUnhashed = false)
    (ha : t.Apart p q d.ptr e.ptr) : t.Redirected (t.dMove d.ptr e.ptr) q d.ptr e.dName := by
  intro p' c hc hpos
  rcases (ht.dMove hd he hop hhash ha).2.2 _ hc with heq | heq | ⟨hc, hne, -⟩
  · cases heq
    exact .inl ⟨rfl, rfl, rfl⟩
  · cases heq
    simp [Dentry.positive, Dentry.drop] at hpos
  · exact .inr ⟨hne, c, hc, hpos, rfl, rfl⟩

end Redirected

end Dcache

end Wjfs
