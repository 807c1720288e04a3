import Wjfs.Rows

/-!
# Wjfs.Orderly

A host whose names and numbers are all different, and whose table fits its
tree.

The frames name a directory by its bare name, and the table leads to a link by
its bare number.  On an orderly host both searches find the one dentry that is
meant, so a create frame makes the link it announces and a remove frame takes
out the link it means.
-/

namespace Wjfs

open Replica

namespace Host

variable {g h : Host} {mine mine' : Set Ptr} {p i j k : Ptr} {d : Dentry} {n : Bytes}
  {x y : Option Ptr × Dentry} {f r : Row}

/-- A search that can only end at one element. -/
theorem find?_of_unique {α : Type*} {l : List α} {q : α → Bool} {a : α} (ha : a ∈ l)
    (hq : q a = true) (hu : ∀ b ∈ l, q b = true → b = a) : l.find? q = some a := by
  obtain ⟨b, hb⟩ := Option.isSome_iff_exists.mp (List.find?_isSome.mpr ⟨a, ha, hq⟩)
  rw [hb, hu b (List.mem_of_find?_eq_some hb) (List.find?_some hb)]

/-- The order that a host is in as long as names and numbers are not used
twice: the used entries of the table are those of the links, `mine` being the
inodes that the host made for itself. -/
structure Orderly (mine : Set Ptr) (h : Host) : Prop where
  tidy : h.Tidy h.onePin
  root : ∀ x ∈ h.dcache.bare, x.2.ptr = h.root → x.2.dName = rootName
  names : (h.dcache.bare.map fun x => x.2.dName).Nodup
  numbers : (h.dcache.bare.map fun x => x.2.dInode.map h.number).Nodup
  range : ∀ x ∈ h.dcache.bare, ∀ i, x.2.dInode = some i → InRange (h.number i)
  plain : ∀ p d, (some p, d) ∈ h.dcache.bare → WellFormed d.dName
  mine_lt : ∀ i ∈ mine, i < h.nextPtr
  entry : ∀ e ∈ h.table.live, ∃ i ∉ mine, ∃ f, h.HasRow i f ∧
    f.id = (e.localIno, e.localParentIno)
  link : ∀ i ∉ mine, ∀ f, h.HasRow i f → ∃ e ∈ h.table.live, e.localIno = f.id.1
  distinct : (h.table.live.map Entry.localIno).Nodup
  ids : (h.table.live.map fun e => (e.rdmaIno, e.rdmaParentIno)).Nodup
  opened : ∀ k ∈ h.files, k ∈ h.dcache.ptrs

/-! ## dentries and rows -/

theorem mem_ptrs_of_bare (hx : x ∈ h.dcache.bare) : x.2.ptr ∈ h.dcache.ptrs := by
  rw [← Dcache.map_ptr_bare]
  exact List.mem_map_of_mem hx

theorem exists_bare_of_mem_ptrs (hk : k ∈ h.dcache.ptrs) : ∃ x ∈ h.dcache.bare, x.2.ptr = k := by
  rw [← Dcache.map_ptr_bare] at hk
  exact List.mem_map.mp hk

namespace Orderly

variable (ho : Orderly mine h)
include ho

theorem eq_of_ptr (hx : x ∈ h.dcache.bare) (hy : y ∈ h.dcache.bare) (hptr : x.2.ptr = y.2.ptr) :
    x = y := by
  have hn := ho.tidy.sound.nodup
  rw [← Dcache.map_ptr_bare] at hn
  exact List.inj_on_of_nodup_map hn hx hy hptr

theorem eq_of_name (hx : x ∈ h.dcache.bare) (hy : y ∈ h.dcache.bare)
    (hname : x.2.dName = y.2.dName) : x = y :=
  List.inj_on_of_nodup_map ho.names hx hy hname

theorem eq_of_number (hx : x ∈ h.dcache.bare) (hy : y ∈ h.dcache.bare) (hi : x.2.dInode = some i)
    (hj : y.2.dInode = some j) (hnum : h.number i = h.number j) : x = y := by
  refine List.inj_on_of_nodup_map ho.numbers hx hy ?_
  simp only [hi, hj, Option.map_some, hnum]

/-- Every dentry but the root has a row. -/
theorem exists_seat (hd : (some p, d) ∈ h.dcache.bare) : ∃ x i j, h.Seat p d x i j := by
  obtain ⟨⟨q, e⟩, he, heq⟩ := Dcache.exists_of_mem_bare hd
  cases heq
  obtain ⟨i, hi⟩ := Option.isSome_iff_exists.mp (ho.tidy.ready.live p e he).2.2.2
  obtain ⟨j, hj, -⟩ := ho.tidy.dirs p e he
  obtain ⟨z, hz, hzj⟩ := Ready.exists_dentry hj
  have hzp : z.2.ptr = p := Dcache.ptr_of_node? hz
  exact ⟨Dcache.strip z, i, j, hd, hi, Dcache.mem_bare_of_mem (Dcache.mem_nodes_of_node? hz),
    hzp, hzj⟩

/-- No two rows have the same number. -/
theorem hasRow_unique (hf : h.HasRow i f) (hr : h.HasRow k r) (hid : f.id.1 = r.id.1) :
    i = k ∧ f = r := by
  obtain ⟨p, d, x, j, hs, rfl⟩ := hf
  obtain ⟨q, e, y, l, ht, rfl⟩ := hr
  have heq := ho.eq_of_number hs.mem ht.mem hs.inode ht.inode hid
  cases heq
  obtain rfl := Option.some.inj (hs.inode.symm.trans ht.inode)
  obtain rfl := ho.eq_of_ptr hs.parent ht.parent (hs.parentPtr.trans ht.parentPtr.symm)
  obtain rfl := Option.some.inj (hs.parentInode.symm.trans ht.parentInode)
  exact ⟨rfl, rfl⟩

/-- Nor the same name. -/
theorem hasRow_unique_name (hf : h.HasRow i f) (hr : h.HasRow k r) (hname : f.name = r.name) :
    i = k ∧ f = r := by
  obtain ⟨p, d, x, j, hs, rfl⟩ := hf
  obtain ⟨q, e, y, l, ht, rfl⟩ := hr
  cases ho.eq_of_name hs.mem ht.mem hname
  obtain rfl := Option.some.inj (hs.inode.symm.trans ht.inode)
  exact ho.hasRow_unique ⟨p, d, x, j, hs, rfl⟩ ⟨p, d, y, l, ht, rfl⟩ rfl

/-- What is neither the host's own is a link. -/
theorem mem_owns_or_copies (hf : h.HasRow i f) : f ∈ h.Owns mine ∨
    ∃ r ∈ h.Copies mine, r.name = f.name ∧ r.parent = f.parent ∧ r.isDir = f.isDir := by
  by_cases hi : i ∈ mine
  · exact .inl ⟨i, hi, hf⟩
  · obtain ⟨e, he, hloc⟩ := ho.link i hi f hf
    exact .inr ⟨_, ⟨i, hi, f, hf, e, he, hloc, rfl⟩, rfl, rfl, rfl⟩

omit ho in
/-- A row of the tree. -/
theorem exists_hasRow (hr : r ∈ h.Owns mine ∪ h.Copies mine) : ∃ i f, h.HasRow i f ∧
    r.name = f.name ∧ r.parent = f.parent ∧ r.isDir = f.isDir := by
  rcases hr with ⟨i, -, hf⟩ | ⟨i, -, f, hf, -, -, -, rfl⟩
  · exact ⟨i, r, hf, rfl, rfl, rfl⟩
  · exact ⟨i, f, hf, rfl, rfl, rfl⟩

/-- A name that no row has. -/
theorem name_ne (hn : WellFormed n) (hfree : ∀ f ∈ h.Owns mine ∪ h.Copies mine, f.name ≠ n)
    (hx : x ∈ h.dcache.bare) : x.2.dName ≠ n := by
  obtain ⟨q, d⟩ := x
  cases q with
  | none =>
      obtain ⟨y, hy, heq⟩ := Dcache.exists_of_mem_bare hx
      have hroot := ho.tidy.sound.top y hy (congrArg Prod.fst heq)
      have hptr : y.2.ptr = d.ptr := congrArg (fun z => z.2.ptr) heq
      rw [ho.root _ hx (hptr.symm.trans hroot)]
      exact hn.ne_rootName.symm
  | some p =>
      obtain ⟨x, i, j, hs⟩ := ho.exists_seat hx
      rcases ho.mem_owns_or_copies (f := h.row d x i j) ⟨p, d, x, j, hs, rfl⟩ with
        hf | ⟨r, hr, hname, -⟩
      · exact hfree _ (.inl hf)
      · intro heq
        exact hfree r (.inr hr) (hname.trans heq)

/-! ## searches -/

/-- The search for a directory by its name. -/
theorem resolveParent (hx : x ∈ h.dcache.nodes) : h.resolveParent x.2.dName = some x.2.ptr := by
  have hbare := Dcache.mem_bare_of_mem hx
  obtain ⟨z, hz, hzr⟩ := Forest.exists_mem_flat ho.tidy.sound.root_mem none
  have hroot : h.dName? h.root = some z.2.dName := by
    rw [dName?, dentryOf?, ← hzr]
    exact congrArg (Option.map _) (Dcache.node?_of_mem ho.tidy.sound.nodup hz)
  rw [resolveParent_eq, hroot]
  by_cases hname : z.2.dName = x.2.dName
  · have heq := ho.eq_of_name (Dcache.mem_bare_of_mem hz) hbare hname
    have hptr : z.2.ptr = x.2.ptr := congrArg (fun v => v.2.ptr) heq
    rw [if_pos (congrArg some hname), ← hptr, hzr]
  · rw [if_neg fun heq => hname (Option.some.inj heq)]
    obtain ⟨p, hp⟩ := ho.tidy.sound.exists_parent hx fun hptr => hname
      (congrArg (fun v => v.2.dName) (Forest.eq_of_mem_flat ho.tidy.sound.nodup hz hx
        (hzr.trans hptr.symm)))
    obtain ⟨q, d⟩ := x
    obtain rfl : q = some p := hp
    have hfind : (h.seen.map look).find? (fun v => v.1 == d.dName) = some (look d) := by
      refine find?_of_unique (List.mem_map_of_mem (ho.tidy.mem_visit_iff.mpr ⟨p, hx⟩))
        (beq_self_eq_true d.dName) fun v hv hvn => ?_
      obtain ⟨e, he, rfl⟩ := List.mem_map.mp hv
      obtain ⟨q, hq⟩ := ho.tidy.mem_visit_iff.mp he
      exact congrArg (fun v => look v.2)
        (ho.eq_of_name (Dcache.mem_bare_of_mem hq) hbare (beq_iff_eq.mp hvn))
    exact congrArg (Option.map _) hfind

/-- The search for a link by its number. -/
theorem findDentryByIno (hd : (some p, d) ∈ h.dcache.nodes) (hi : d.dInode = some i) :
    h.findDentryByIno h.root (h.number i) = some d := by
  rw [Host.findDentryByIno, findSubdirs_eq]
  refine find?_of_unique (ho.tidy.mem_visit_iff.mpr ⟨p, hd⟩) ?_ fun e he hany => ?_
  · rw [hi]
    exact beq_self_eq_true (h.number i)
  · obtain ⟨q, hq⟩ := ho.tidy.mem_visit_iff.mp he
    obtain ⟨l, hl, hnum⟩ := (Option.any_eq_true _ _).mp hany
    have heq := ho.eq_of_number (Dcache.mem_bare_of_mem hq) (Dcache.mem_bare_of_mem hd) hl hi
      (beq_iff_eq.mp hnum)
    have hptr : e.ptr = d.ptr := congrArg (fun v => v.2.ptr) heq
    exact congrArg Prod.snd (Forest.eq_of_mem_flat ho.tidy.sound.nodup hq hd hptr)

theorem dLookup_eq_none (hfree : ∀ x ∈ h.dcache.bare, x.2.dName ≠ n) :
    h.dcache.dLookup p n = none := by
  by_contra hsome
  obtain ⟨e, he⟩ := Option.ne_none_iff_exists'.mp hsome
  exact hfree _ (Dcache.mem_bare_of_mem (Dcache.mem_nodes_of_dLookup ho.tidy.sound.nodup he))
    (Dcache.dLookup_some he).2.2

end Orderly

/-! ## one dentry more, one dentry less -/

namespace Planted

variable (hp : Planted g h p d x i j)
include hp

theorem number_eq (hy : y ∈ g.dcache.bare) (hk : y.2.dInode = some k) :
    h.number k = g.number k := (hp.same y hy k hk).1

theorem map_number : (g.dcache.bare.map fun x => x.2.dInode.map h.number) =
    g.dcache.bare.map fun x => x.2.dInode.map g.number :=
  List.map_congr_left fun _ hy => Option.map_congr fun _ hk => hp.number_eq hy hk

/-- No other row has the number of the new dentry. -/
theorem number_ne (hn : (h.dcache.bare.map fun x => x.2.dInode.map h.number).Nodup)
    (hf : g.HasRow k f) : f.id.1 ≠ h.number i := by
  obtain ⟨q, e, y, l, hs, rfl⟩ := hf
  rw [(hp.perm.map _).nodup_iff, List.map_cons, List.nodup_cons, hp.inode] at hn
  intro heq
  refine hn.1 (List.mem_map.mpr ⟨_, hs.mem, ?_⟩)
  simp only [hs.inode, Option.map_some, hp.number_eq hs.mem hs.inode]
  exact congrArg some heq

/-- Nor its name. -/
theorem name_ne (hn : (h.dcache.bare.map fun x => x.2.dName).Nodup)
    (hf : g.HasRow k f) : f.name ≠ d.dName := by
  obtain ⟨q, e, y, l, hs, rfl⟩ := hf
  rw [(hp.perm.map _).nodup_iff, List.map_cons, List.nodup_cons] at hn
  exact fun heq => hn.1 (List.mem_map.mpr ⟨_, hs.mem, heq⟩)

end Planted

namespace Orderly

/-- A host stays orderly with one dentry more, if its name and its number are
new; a link needs an entry. -/
theorem plant (ho : Orderly mine g) (hp : Planted g h p d x i j) (ht : h.Tidy h.onePin)
    (hroot : h.root = g.root) (hfiles : h.files = g.files) (hplain : WellFormed d.dName)
    (hname : ∀ y ∈ g.dcache.bare, y.2.dName ≠ d.dName) (hrange : InRange (h.number i))
    (hnum : ∀ y ∈ g.dcache.bare, ∀ k, y.2.dInode = some k → g.number k ≠ h.number i)
    (hmine : ∀ k f, g.HasRow k f → (k ∈ mine' ↔ k ∈ mine)) (hlt : ∀ k ∈ mine', k < h.nextPtr)
    (hlive : i ∈ mine' ∧ h.table.live = g.table.live ∨ i ∉ mine' ∧ ∃ e,
      h.table.live.Perm (e :: g.table.live) ∧ e.localIno = h.number i ∧
      e.localParentIno = h.number j ∧
      ∀ e' ∈ g.table.live, (e'.rdmaIno, e'.rdmaParentIno) ≠ (e.rdmaIno, e.rdmaParentIno)) :
    Orderly mine' h := by
  have hnumbers : (h.dcache.bare.map fun x => x.2.dInode.map h.number).Nodup := by
    rw [(hp.perm.map _).nodup_iff, List.map_cons, List.nodup_cons, hp.map_number]
    refine ⟨fun hmem => ?_, ho.numbers⟩
    obtain ⟨y, hy, heq⟩ := List.mem_map.mp hmem
    rw [hp.inode, Option.map_some, Option.map_eq_some_iff] at heq
    obtain ⟨k, hk, heq⟩ := heq
    exact hnum y hy k hk heq
  -- an old entry belongs to an old link
  have hold : ∀ e ∈ g.table.live, ∃ k ∉ mine', ∃ f, h.HasRow k f ∧
      f.id = (e.localIno, e.localParentIno) := by
    intro e he
    obtain ⟨k, hk, f, hf, hid⟩ := ho.entry e he
    exact ⟨k, mt (hmine k f hf).mp hk, f, hp.hasRow_iff.mpr (.inl hf), hid⟩
  have hloc : ∀ e ∈ g.table.live, e.localIno ≠ h.number i := by
    intro e he heq
    obtain ⟨k, -, f, hf, hid⟩ := ho.entry e he
    exact hp.number_ne hnumbers hf (by rw [hid]; exact heq)
  refine ⟨ht, ?_, ?_, hnumbers, ?_, ?_, hlt, ?_, ?_, ?_, ?_, ?_⟩
  · intro y hy hyr
    rcases hp.mem_bare.mp hy with rfl | hy
    · obtain ⟨z, hz, hzr⟩ := exists_bare_of_mem_ptrs ho.tidy.sound.root_mem
      exact absurd (hzr.trans (hroot.symm.trans hyr.symm)) (hp.ptr_ne hz)
    · exact ho.root y hy (hyr.trans hroot)
  · rw [(hp.perm.map _).nodup_iff, List.map_cons, List.nodup_cons]
    refine ⟨fun hmem => ?_, ho.names⟩
    obtain ⟨y, hy, heq⟩ := List.mem_map.mp hmem
    exact hname y hy heq
  · intro y hy k hk
    rcases hp.mem_bare.mp hy with rfl | hy
    · obtain rfl := Option.some.inj (hp.inode.symm.trans hk)
      exact hrange
    · rw [hp.number_eq hy hk]
      exact ho.range y hy k hk
  · intro q e he
    rcases hp.mem_bare.mp he with heq | he
    · cases heq
      exact hplain
    · exact ho.plain q e he
  · intro e he
    rcases hlive with ⟨-, heq⟩ | ⟨hi, e', hperm, hino, hpar, -⟩
    · exact hold e (heq ▸ he)
    · rcases List.mem_cons.mp (hperm.mem_iff.mp he) with rfl | he
      · exact ⟨i, hi, h.row d x i j, hp.hasRow_iff.mpr (.inr ⟨rfl, rfl⟩),
          by rw [hino, hpar]; rfl⟩
      · exact hold e he
  · intro k hk f hf
    rcases hp.hasRow_iff.mp hf with hf | ⟨rfl, rfl⟩
    · obtain ⟨e, he, heq⟩ := ho.link k (mt (hmine k f hf).mpr hk) f hf
      refine ⟨e, ?_, heq⟩
      rcases hlive with ⟨-, hsame⟩ | ⟨-, e', hperm, -⟩
      · exact hsame ▸ he
      · exact hperm.mem_iff.mpr (List.mem_cons_of_mem e' he)
    · rcases hlive with ⟨hi, -⟩ | ⟨-, e', hperm, hino, -⟩
      · exact absurd hi hk
      · exact ⟨e', hperm.mem_iff.mpr List.mem_cons_self, hino⟩
  · rcases hlive with ⟨-, heq⟩ | ⟨-, e', hperm, hino, -⟩
    · rw [heq]
      exact ho.distinct
    · rw [(hperm.map _).nodup_iff, List.map_cons, List.nodup_cons]
      refine ⟨fun hmem => ?_, ho.distinct⟩
      obtain ⟨e, he, heq⟩ := List.mem_map.mp hmem
      exact hloc e he (heq.trans hino)
  · rcases hlive with ⟨-, heq⟩ | ⟨-, e', hperm, -, -, hids⟩
    · rw [heq]
      exact ho.ids
    · rw [(hperm.map _).nodup_iff, List.map_cons, List.nodup_cons]
      refine ⟨fun hmem => ?_, ho.ids⟩
      obtain ⟨e, he, heq⟩ := List.mem_map.mp hmem
      exact hids e he heq
  · intro k hk
    rw [hfiles] at hk
    obtain ⟨y, hy, rfl⟩ := exists_bare_of_mem_ptrs (ho.opened k hk)
    exact mem_ptrs_of_bare (hp.mem_bare.mpr (.inr hy))

/-- It stays orderly with one dentry less that is not open; a link loses its
entry. -/
theorem prune (ho : Orderly mine h) (hp : Planted g h p d x i j) (ht : g.Tidy g.onePin)
    (hroot : g.root = h.root) (hfiles : g.files = h.files) (hopen : d.ptr ∉ h.files)
    (hnext : h.nextPtr ≤ g.nextPtr)
    (hlive : i ∈ mine ∧ h.table.live = g.table.live ∨ i ∉ mine ∧ ∃ e,
      h.table.live.Perm (e :: g.table.live) ∧ e.localIno = h.number i) :
    Orderly mine g := by
  have hsub : ∀ {y}, y ∈ g.dcache.bare → y ∈ h.dcache.bare := fun hy =>
    hp.mem_bare.mpr (.inr hy)
  have hmem : ∀ {e}, e ∈ g.table.live → e ∈ h.table.live := fun he => by
    rcases hlive with ⟨-, heq⟩ | ⟨-, e', hperm, -⟩
    · exact heq ▸ he
    · exact hperm.mem_iff.mpr (List.mem_cons_of_mem e' he)
  have hnames := ho.names
  rw [(hp.perm.map _).nodup_iff, List.map_cons, List.nodup_cons] at hnames
  have hnumbers := ho.numbers
  rw [(hp.perm.map _).nodup_iff, List.map_cons, List.nodup_cons] at hnumbers
  rw [hp.map_number] at hnumbers
  refine ⟨ht, fun y hy hyr => ho.root y (hsub hy) (hyr.trans hroot), hnames.2, hnumbers.2, ?_,
    fun q e he => ho.plain q e (hsub he), fun k hk => Nat.lt_of_lt_of_le (ho.mine_lt k hk) hnext,
    ?_, ?_, ?_, ?_, ?_⟩
  · intro y hy k hk
    rw [← hp.number_eq hy hk]
    exact ho.range y (hsub hy) k hk
  · intro e he
    obtain ⟨k, hk, f, hf, hid⟩ := ho.entry e (hmem he)
    rcases hp.hasRow_iff.mp hf with hf | ⟨rfl, rfl⟩
    · exact ⟨k, hk, f, hf, hid⟩
    · rcases hlive with ⟨hi, -⟩ | ⟨-, e', hperm, hino⟩
      · exact absurd hi hk
      · -- the entry that is left would have the number of the link that is gone
        have hdistinct := ho.distinct
        rw [(hperm.map _).nodup_iff, List.map_cons, List.nodup_cons] at hdistinct
        have hloc : e.localIno = h.number k := (congrArg Prod.fst hid).symm
        exact absurd (List.mem_map.mpr ⟨e, he, hloc.trans hino.symm⟩) hdistinct.1
  · intro k hk f hf
    obtain ⟨e, he, heq⟩ := ho.link k hk f (hp.hasRow_iff.mpr (.inl hf))
    refine ⟨e, ?_, heq⟩
    rcases hlive with ⟨-, hsame⟩ | ⟨-, e', hperm, hino⟩
    · exact hsame ▸ he
    · rcases List.mem_cons.mp (hperm.mem_iff.mp he) with rfl | he
      · exact absurd (heq.symm.trans hino) (hp.number_ne ho.numbers hf)
      · exact he
  · rcases hlive with ⟨-, heq⟩ | ⟨-, e', hperm, -⟩
    · rw [← heq]
      exact ho.distinct
    · have hdistinct := ho.distinct
      rw [(hperm.map _).nodup_iff, List.map_cons, List.nodup_cons] at hdistinct
      exact hdistinct.2
  · rcases hlive with ⟨-, heq⟩ | ⟨-, e', hperm, -⟩
    · rw [← heq]
      exact ho.ids
    · have hids := ho.ids
      rw [(hperm.map _).nodup_iff, List.map_cons, List.nodup_cons] at hids
      exact hids.2
  · intro k hk
    rw [hfiles] at hk
    obtain ⟨y, hy, rfl⟩ := exists_bare_of_mem_ptrs (ho.opened k hk)
    rcases hp.mem_bare.mp hy with rfl | hy
    · exact absurd hk hopen
    · exact mem_ptrs_of_bare hy

end Orderly

end Host

end Wjfs
