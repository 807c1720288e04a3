import Wjfs.Host.Tidy
import Wjfs.Remote

/-!
# Wjfs.Search

The order in which the two tree searches look at dentries, and what they find.

Both recursions test a directory after everything below it, and siblings in
`d_subdirs` order, the newest first: they return the first dentry in that
order that passes the test.  On a host in order they look at every dentry.
-/

namespace Wjfs

namespace Host

variable {inodes : Ptr → Inode} {test : Dentry → Bool} {t : Dcache} {d : Dentry}
  {p : Option Ptr}

/-- The dentries that a search looks at, in order. -/
def visit (inodes : Ptr → Inode) : Dcache → List Dentry
  | .nil => []
  | .cons d sub next =>
      match d.dInode with
      | none => visit inodes next
      | some i =>
          if (inodes i).iMode.isZero then visit inodes next
          else (if (inodes i).isDir then visit inodes sub else []) ++ d :: visit inodes next

/-- The searches return the first dentry they look at that passes the test. -/
theorem findSubdirs_eq (inodes : Ptr → Inode) (test : Dentry → Bool) (t : Dcache) :
    findSubdirs inodes test t = (visit inodes t).find? test := by
  induction t with
  | nil => rfl
  | cons d sub next ihs ihn =>
      unfold findSubdirs visit
      cases hd : d.dInode with
      | none => exact ihn
      | some i =>
          simp only
          by_cases hz : (inodes i).iMode.isZero = true
          · simp only [if_pos hz]
            exact ihn
          simp only [if_neg hz]
          rw [List.find?_append, List.find?_cons, ihs, ihn]
          by_cases hdir : (inodes i).isDir = true
          · simp only [if_pos hdir]
            cases hf : (visit inodes sub).find? test with
            | none => cases ht : test d <;> simp
            | some a => simp [Option.filter, List.find?_some hf]
          · simp only [if_neg hdir]
            cases ht : test d <;> simp

/-- Whatever a search looks at is in the tree. -/
theorem exists_of_mem_visit (p : Option Ptr) (hd : d ∈ visit inodes t) :
    ∃ q, (q, d) ∈ Forest.flat Dentry.ptr p t := by
  induction t generalizing p with
  | nil => cases hd
  | cons a sub next ihs ihn =>
      have hnext : d ∈ visit inodes next →
          ∃ q, (q, d) ∈ Forest.flat Dentry.ptr p (.cons a sub next) := by
        intro h
        obtain ⟨q, hq⟩ := ihn p h
        exact ⟨q, by simp [Forest.flat, hq]⟩
      unfold visit at hd
      split at hd
      · exact hnext hd
      · split at hd
        · exact hnext hd
        · rcases List.mem_append.mp hd with h | h
          · split at h
            · obtain ⟨q, hq⟩ := ihs (some a.ptr) h
              exact ⟨q, by simp [Forest.flat, hq]⟩
            · cases h
          · rcases List.mem_cons.mp h with rfl | h
            · exact ⟨p, by simp [Forest.flat]⟩
            · exact hnext h

/-- What a search looks at, as far as a rewriting of one dentry keeps it. -/
theorem map_visit_update {β : Type} {f : Dentry → Dentry} {g : Dentry → β} (k : Ptr)
    (hf : ∀ d, (f d).dInode = d.dInode) (hg : ∀ d, g (f d) = g d) :
    (visit inodes (t.update k f)).map g = (visit inodes t).map g := by
  induction t with
  | nil => rfl
  | cons a sub next ihs ihn =>
      have hi : (if a.ptr = k then f a else a).dInode = a.dInode := by
        split
        · exact hf a
        · rfl
      have hga : g (if a.ptr = k then f a else a) = g a := by
        split
        · exact hg a
        · rfl
      have hcons : Dcache.update (.cons a sub next) k f = .cons (if a.ptr = k then f a else a)
          (Dcache.update sub k f) (Dcache.update next k f) := rfl
      rw [hcons, visit, visit, hi]
      cases a.dInode with
      | none => exact ihn
      | some i =>
          simp only
          split
          · exact ihn
          · rw [List.map_append, List.map_append, List.map_cons, List.map_cons, hga, ihn]
            split
            · rw [ihs]
            · rfl

/-- Of the inodes only the modes count. -/
theorem visit_congr {inodes' : Ptr → Inode} (p : Option Ptr)
    (h : ∀ x ∈ Forest.flat Dentry.ptr p t, ∀ i, x.2.dInode = some i →
      (inodes' i).iMode = (inodes i).iMode) : visit inodes' t = visit inodes t := by
  induction t generalizing p with
  | nil => rfl
  | cons a sub next ihs ihn =>
      have hs := ihs (some a.ptr) fun x hx => h x (by simp [Forest.flat, hx])
      have hn := ihn p fun x hx => h x (by simp [Forest.flat, hx])
      unfold visit
      cases ha : a.dInode with
      | none => exact hn
      | some i =>
          have hi := h (p, a) (by simp [Forest.flat]) i ha
          have hdir : (inodes' i).isDir = (inodes i).isDir := congrArg Mode.isDir hi
          simp only [hdir, hi, hs, hn]

theorem filter_visit {k : Ptr} (hk : k ∉ Forest.keys Dentry.ptr t) :
    (visit inodes t).filter (fun d => d.ptr ≠ k) = visit inodes t := by
  refine List.filter_eq_self.mpr fun d hd => decide_eq_true fun heq => hk ?_
  obtain ⟨q, hq⟩ := exists_of_mem_visit none hd
  exact heq ▸ Forest.mem_keys_of_mem_flat hq

/-- A search of a tree with one more leaf looks at the other dentries in the
same order. -/
theorem filter_visit_graft {k i : Ptr} (hi : d.dInode = some i)
    (hd : d.ptr ∉ Forest.keys Dentry.ptr t) :
    (visit inodes (Forest.graft Dentry.ptr k t (.cons d .nil .nil))).filter
      (fun e => e.ptr ≠ d.ptr) = visit inodes t := by
  induction t with
  | nil => rfl
  | cons a sub next ihs ihn =>
      simp only [Forest.keys, List.mem_cons, List.mem_append, not_or] at hd
      obtain ⟨hda, hds, hdn⟩ := hd
      have ha : decide (a.ptr ≠ d.ptr) = true := decide_eq_true (Ne.symm hda)
      -- the children of `a` and what follows it, with the leaf or without
      have hcons : ∀ s n, (visit inodes s).filter (fun e => e.ptr ≠ d.ptr) = visit inodes sub →
          (visit inodes n).filter (fun e => e.ptr ≠ d.ptr) = visit inodes next →
          (visit inodes (.cons a s n)).filter (fun e => e.ptr ≠ d.ptr) =
            visit inodes (.cons a sub next) := by
        intro s n hs hn
        unfold visit
        cases a.dInode with
        | none => exact hn
        | some j =>
            simp only
            split
            · exact hn
            · rw [List.filter_append,
                List.filter_cons_of_pos (p := fun e : Dentry => e.ptr ≠ d.ptr) ha, hn]
              split
              · rw [hs]
              · rfl
      by_cases hk : a.ptr = k
      · rw [Forest.graft, if_pos hk]
        refine hcons _ _ ?_ (filter_visit hdn)
        simp only [Forest.append, visit, hi]
        split
        · exact filter_visit hds
        · rw [ite_self, List.nil_append, List.filter_cons_of_neg (by simp)]
          exact filter_visit hds
      · rw [Forest.graft, if_neg hk]
        exact hcons _ _ (ihs hds) (ihn hdn)

/-- It looks at the leaf if it looks at the directory. -/
theorem mem_visit_graft {i k : Ptr} {a : Dentry} (hn : (Forest.keys Dentry.ptr t).Nodup)
    (hi : d.dInode = some i) (hz : (inodes i).iMode.isZero = false) (ha : a ∈ visit inodes t)
    (hak : a.ptr = k) {j : Ptr} (hj : a.dInode = some j) (hdir : (inodes j).isDir = true) :
    d ∈ visit inodes (Forest.graft Dentry.ptr k t (.cons d .nil .nil)) := by
  subst hak
  induction t with
  | nil => cases ha
  | cons b sub next ihs ihn =>
      simp only [Forest.keys, List.nodup_cons, List.mem_append, not_or, List.nodup_append] at hn
      obtain ⟨⟨hbs, hbn⟩, hns, hnn, -⟩ := hn
      have hkeys : ∀ {t}, a ∈ visit inodes t → a.ptr ∈ Forest.keys Dentry.ptr t := fun h => by
        obtain ⟨q, hq⟩ := exists_of_mem_visit none h
        exact Forest.mem_keys_of_mem_flat hq
      have hleaf : ∀ s, d ∈ visit inodes (Forest.append (.cons d .nil .nil) s) := fun s => by
        simp [Forest.append, visit, hi, hz]
      unfold visit at ha
      by_cases hk : b.ptr = a.ptr
      · rw [Forest.graft, if_pos hk, visit]
        split at ha
        · exact absurd (hk ▸ hkeys ha) hbn
        · split at ha
          · exact absurd (hk ▸ hkeys ha) hbn
          · next m hb hzm =>
              rw [if_neg hzm]
              rcases List.mem_append.mp ha with h | h
              · split at h
                · exact absurd (hk ▸ hkeys h) hbs
                · cases h
              · rcases List.mem_cons.mp h with rfl | h
                · rw [hb] at hj
                  cases hj
                  rw [if_pos hdir]
                  exact List.mem_append_left _ (hleaf sub)
                · exact absurd (hk ▸ hkeys h) hbn
      · rw [Forest.graft, if_neg hk, visit]
        split at ha
        · exact ihn hnn ha
        · split at ha
          · next m hb hzm =>
              rw [if_pos hzm]
              exact ihn hnn ha
          · next m hb hzm =>
              rw [if_neg hzm]
              rcases List.mem_append.mp ha with h | h
              · split at h
                · next hm =>
                    rw [if_pos hm]
                    exact List.mem_append_left _ (ihs hns h)
                · cases h
              · rcases List.mem_cons.mp h with rfl | h
                · exact absurd rfl hk
                · exact List.mem_append_right _ (List.mem_cons_of_mem _ (ihn hnn h))

/-- Every dentry has an inode with a mode, and only directories have
children. -/
def Walkable (inodes : Ptr → Inode) : Dcache → Prop
  | .nil => True
  | .cons d sub next =>
      (∃ i, d.dInode = some i ∧ (inodes i).iMode.isZero = false ∧
        ((inodes i).isDir = true ∨ sub = .nil)) ∧ Walkable inodes sub ∧ Walkable inodes next

/-- In such a tree a search looks at everything. -/
theorem Walkable.mem_visit {q : Option Ptr} (hw : Walkable inodes t)
    (hd : (p, d) ∈ Forest.flat Dentry.ptr q t) :
    d ∈ visit inodes t := by
  induction t generalizing q with
  | nil => cases hd
  | cons a sub next ihs ihn =>
      obtain ⟨⟨i, hi, hz, hdir⟩, hws, hwn⟩ := hw
      simp only [Forest.flat, List.mem_cons, List.mem_append] at hd
      simp only [visit, hi, hz, Bool.false_eq_true, if_false, List.mem_append, List.mem_cons]
      rcases hd with heq | hd | hd
      · exact .inr (.inl (congrArg (fun x => x.2) heq))
      · rcases hdir with hdir | rfl
        · rw [if_pos hdir]
          exact .inl (ihs hws hd)
        · cases hd
      · exact .inr (.inr (ihn hwn hd))

theorem walkable_of_flat {q : Option Ptr}
    (hlive : ∀ x ∈ Forest.flat Dentry.ptr q t,
      ∃ i, x.2.dInode = some i ∧ (inodes i).iMode.isZero = false)
    (hdir : ∀ k d, (some k, d) ∈ Forest.flat Dentry.ptr q t →
      ∀ y ∈ Forest.flat Dentry.ptr q t, y.2.ptr = k → ∀ i, y.2.dInode = some i →
        (inodes i).isDir = true) : Walkable inodes t := by
  induction t generalizing q with
  | nil => trivial
  | cons a sub next ihs ihn =>
      have hs : ∀ x ∈ Forest.flat Dentry.ptr (some a.ptr) sub,
          x ∈ Forest.flat Dentry.ptr q (.cons a sub next) := by
        intro x hx
        simp [Forest.flat, hx]
      have hnx : ∀ x ∈ Forest.flat Dentry.ptr q next,
          x ∈ Forest.flat Dentry.ptr q (.cons a sub next) := by
        intro x hx
        simp [Forest.flat, hx]
      have ha : (q, a) ∈ Forest.flat Dentry.ptr q (.cons a sub next) := by simp [Forest.flat]
      refine ⟨?_, ihs (fun x hx => hlive x (hs x hx)) ?_, ihn (fun x hx => hlive x (hnx x hx)) ?_⟩
      · obtain ⟨i, hi, hz⟩ := hlive _ ha
        refine ⟨i, hi, hz, ?_⟩
        cases sub with
        | nil => exact .inr rfl
        | cons b s n =>
            exact .inl (hdir a.ptr b (hs _ (by simp [Forest.flat])) _ ha rfl i hi)
      · exact fun k d hd y hy => hdir k d (hs _ hd) y (hs y hy)
      · exact fun k d hd y hy => hdir k d (hnx _ hd) y (hnx y hy)

/-! ## the first match in post-order -/

/-- The search looks at a dentry only if it has an inode with a mode. -/
def searched (inodes : Ptr → Inode) (d : Dentry) : Bool :=
  d.dInode.any fun i => !(inodes i).iMode.isZero

/-- It looks below a dentry only if that is also a directory. -/
def entered (inodes : Ptr → Inode) (d : Dentry) : Bool :=
  d.dInode.any fun i => !(inodes i).iMode.isZero && (inodes i).isDir

/-- A dentry, given with its ancestors below the root, that a search from the
root comes to. -/
def reached (inodes : Ptr → Inode) (x : List Dentry × Dentry) : Bool :=
  x.1.all (entered inodes) && searched inodes x.2

/-- What a search looks at is what a walk through the directories comes to. -/
theorem visit_eq_through :
    visit inodes t = (Forest.through (entered inodes) t).filter (searched inodes) := by
  induction t with
  | nil => rfl
  | cons a sub next ihs ihn =>
      rw [visit, Forest.through, List.filter_append, List.filter_cons, ← ihn]
      cases hi : a.dInode with
      | none => simp [searched, entered, hi]
      | some i =>
          by_cases hz : (inodes i).iMode.isZero = true
          · simp [searched, entered, hi, hz]
          · by_cases hdir : (inodes i).isDir = true
            · simp [searched, entered, hi, hz, hdir, ihs]
            · simp [searched, entered, hi, hz, hdir]

/-- So it is the post-order, restricted to what the search reaches. -/
theorem visit_eq_postorder :
    visit inodes t = ((Forest.postorder [] t).filter (reached inodes)).map Prod.snd := by
  rw [visit_eq_through, Forest.through_eq [] rfl, List.filter_map, List.filter_filter]
  exact congrArg (List.map Prod.snd) (List.filter_congr fun x _ => Bool.and_comm _ _)

/-- `r` is the first dentry in post-order with property `P` that a search of
the children `t` of a dentry reaches, and `NULL` if there is none. -/
structure FirstMatch (inodes : Ptr → Inode) (t : Dcache) (P : Dentry → Prop)
    (r : Option Dentry) : Prop where
  none_iff : r = none ↔ ∀ x ∈ Forest.postorder [] t, reached inodes x = true → ¬ P x.2
  some_iff : ∀ d, r = some d ↔ ∃ up before after,
    Forest.postorder [] t = before ++ (up, d) :: after ∧ reached inodes (up, d) = true ∧ P d ∧
      ∀ x ∈ before, reached inodes x = true → ¬ P x.2

/-- The common recursion returns the first match. -/
theorem findSubdirs_firstMatch {P : Dentry → Prop} (hP : ∀ d, test d = true ↔ P d) :
    FirstMatch inodes t P (findSubdirs inodes test t) := by
  have hfind : findSubdirs inodes test t = ((Forest.postorder [] t).find?
      fun x => decide (reached inodes x = true ∧ test x.2 = true)).map Prod.snd := by
    rw [findSubdirs_eq, visit_eq_postorder, List.find?_map, List.find?_filter]
    rfl
  constructor
  · rw [hfind, Option.map_eq_none_iff, List.find?_eq_none]
    simp only [decide_eq_true_eq, not_and, hP]
  · intro d
    rw [hfind, Option.map_eq_some_iff]
    simp only [List.find?_eq_some_iff_append, Bool.not_eq_true', decide_eq_false_iff_not,
      decide_eq_true_eq, not_and, hP]
    constructor
    · rintro ⟨⟨up, d'⟩, ⟨⟨hr, hd⟩, before, after, heq, hbefore⟩, rfl⟩
      exact ⟨up, before, after, heq, hr, hd, hbefore⟩
    · rintro ⟨up, before, after, heq, hr, hd, hbefore⟩
      exact ⟨(up, d), ⟨⟨hr, hd⟩, before, after, heq, hbefore⟩, rfl⟩

/-- **The tree searches.**  Whatever the tree, `find_dentry_by_ino` and
`find_from_all_dentry` return the first dentry in post-order below the dentry
they start from that they reach and that has the number, or the name. -/
theorem searches_return_first_match (h : Host) (dentry : Ptr) (ino : CInt) (name : Bytes) :
    FirstMatch h.inodes (h.dcache.subdirs dentry)
        (fun d => ∃ i, d.dInode = some i ∧ (h.inodes i).iIno = ino)
        (h.findDentryByIno dentry ino) ∧
      FirstMatch h.inodes (h.dcache.subdirs dentry) (fun d => d.dName = name)
        (h.findFromAllDentry dentry name) :=
  ⟨findSubdirs_firstMatch fun d => by simp [Option.any_eq_true],
    findSubdirs_firstMatch fun d => beq_iff_eq⟩

/-! ## searching a host in order -/

namespace Tidy

variable {h : Host} {pin : Ptr → Nat} (ht : h.Tidy pin)
include ht

/-- A tree in order is the root and what is below it. -/
theorem nodes_perm : ∃ d, d.ptr = h.root ∧ h.dcache.nodes.Perm
    ((none, d) :: Forest.flat Dentry.ptr (some h.root) (h.dcache.subdirs h.root)) := by
  obtain ⟨⟨p, d⟩, hx, hroot⟩ := Forest.exists_mem_flat ht.sound.root_mem none
  have hp : p = none := by
    cases p with
    | none => rfl
    | some p =>
        have hle := ht.sound.pin_le p d hx
        rw [hroot, ht.sound.pin_root] at hle
        omega
  subst hp
  have hperm := Forest.flat_erase ht.sound.nodup hx
  simp only at hroot
  rw [hroot] at hperm
  -- a second tree beside the root would have a second top node
  have hnil : Forest.erase Dentry.ptr h.root h.dcache = .nil := by
    cases he : Forest.erase Dentry.ptr h.root h.dcache with
    | nil => rfl
    | cons a s n =>
        rw [he] at hperm
        have ha : (none, a) ∈ h.dcache.nodes := hperm.mem_iff.mpr (by simp [Forest.flat])
        have hnd := (hperm.map fun x => x.2.ptr).nodup_iff.mp (by
          rw [Forest.map_key_flat]
          exact ht.sound.nodup)
        simp only [Forest.flat, List.map_cons, List.map_append, List.nodup_cons, List.mem_append,
          List.mem_cons, not_or] at hnd
        exact absurd (hroot.trans (ht.sound.top _ ha rfl).symm) hnd.1.2.1
  rw [hnil, Forest.flat, List.append_nil] at hperm
  exact ⟨d, hroot, hperm⟩

/-- A search from the root looks at exactly the other dentries. -/
theorem mem_visit_iff : d ∈ visit h.inodes (h.dcache.subdirs h.root) ↔
    ∃ p, (some p, d) ∈ h.dcache.nodes := by
  obtain ⟨r, -, hperm⟩ := ht.nodes_perm
  have hmem : ∀ x, x ∈ Forest.flat Dentry.ptr (some h.root) (h.dcache.subdirs h.root) →
      x ∈ h.dcache.nodes := fun x hx => hperm.mem_iff.mpr (List.mem_cons_of_mem _ hx)
  constructor
  · intro hd
    obtain ⟨q, hq⟩ := exists_of_mem_visit (some h.root) hd
    rcases Forest.parent_of_mem_flat hq with hr | ⟨k, -, hk⟩
    · exact ⟨h.root, hmem _ (by obtain rfl : q = some h.root := hr; exact hq)⟩
    · exact ⟨k, hmem _ (by obtain rfl : q = some k := hk; exact hq)⟩
  · rintro ⟨p, hd⟩
    have hd' : (some p, d) ∈ Forest.flat Dentry.ptr (some h.root) (h.dcache.subdirs h.root) :=
      (List.mem_cons.mp (hperm.mem_iff.mp hd)).resolve_left (by simp)
    refine Walkable.mem_visit (walkable_of_flat (q := some h.root) ?_ ?_) hd'
    · intro x hx
      have hxm := hmem x hx
      obtain ⟨p, hp⟩ : ∃ p, x.1 = some p := by
        rcases Forest.parent_of_mem_flat hx with hp | ⟨k, -, hk⟩
        · exact ⟨_, hp⟩
        · exact ⟨_, hk⟩
      obtain ⟨i, hi⟩ := Option.isSome_iff_exists.mp
        (ht.ready.live p x.2 (by rw [← hp]; exact hxm)).2.2.2
      exact ⟨i, hi, (ht.ready.alive x hxm i hi).2⟩
    · intro k e he y hy hyk i hi
      obtain ⟨j, hj, hdir⟩ := ht.dirs k e (hmem _ he)
      have hy' : h.dentryOf? k = some y := by
        rw [← hyk]
        exact Dcache.node?_of_mem ht.sound.nodup (hmem y hy)
      rw [dInode?, hy', Option.bind_some, hi] at hj
      cases hj
      exact hdir

end Tidy

end Host

end Wjfs
