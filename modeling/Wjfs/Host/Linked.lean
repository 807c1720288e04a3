import Wjfs.Host.Paths
import Wjfs.Search
import Wjfs.Table.Laws

/-!
# Wjfs.Host.Linked

A host with a new link, whatever state it was in: which paths it has, what is
recorded for them, and where the search for a directory leads.

`list_add` puts the new dentry in front of its siblings.  The two tree
searches look at all other dentries in the same order as before, so a search
for another name ends where it did.
-/

namespace Wjfs

namespace Host

variable {h : Host} {env : Env} {c : Control} {dir di k : Ptr} {table : Table} {path : List Bytes}
  {n : Bytes} {b : Bool} {r : CInt × CInt}

/-! ## paths -/

section Linked

/-- The dentry of a new link. -/
abbrev linkDentry (h : Host) (c : Control) : Dentry :=
  (liveDentry h.nextPtr c.name (h.nextPtr + 1)).withCount 1

variable (hs : h.Sane) (hl : h.Linkable env c dir di)
include hs hl

omit hs in
theorem Linkable.mem_ptrs : dir ∈ h.dcache.ptrs := by
  obtain ⟨x, hx, -⟩ := Ready.exists_dentry hl.inode
  exact Dcache.mem_ptrs_of_node? hx

omit hs in
theorem Linkable.root_mem_ptrs : h.root ∈ h.dcache.ptrs := by
  have hpar := hl.parent
  unfold resolveParent at hpar
  split at hpar
  · next hname =>
      obtain ⟨x, hx, -⟩ := Option.map_eq_some_iff.mp hname
      exact Dcache.mem_ptrs_of_node? hx
  · by_contra hroot
    have hnil : h.dcache.subdirs h.root = .nil := Forest.sub_of_not_mem hroot
    rw [findFromAllDentry, hnil] at hpar
    cases hpar

/-- The dentries of the host with the link. -/
theorem mem_nodes_linked {x : Option Ptr × Dentry} :
    x ∈ (h.linked dir di c table).dcache.nodes ↔
      x = (some dir, h.linkDentry c) ∨ x ∈ (h.dcache.dget dir).nodes :=
  Dcache.mem_nodes_plant hs.held.nodup hl.mem_ptrs

theorem dInode?_linked (hk : k ≠ h.nextPtr) :
    (h.linked dir di c table).dInode? k = h.dInode? k := by
  have hmap := Dcache.map_node?_plant (F := fun x => x.2.dInode) hs.held.nodup hl.mem_ptrs
    (d := h.linkDentry c) hs.nextPtr_not_mem (fun _ _ => rfl) hk
  have hbind := congrArg (fun o => o.bind id) hmap
  simp only [Option.bind_map] at hbind
  exact hbind

theorem dName?_linked (hk : k ≠ h.nextPtr) :
    (h.linked dir di c table).dName? k = h.dName? k :=
  Dcache.map_node?_plant (F := fun x => x.2.dName) hs.held.nodup hl.mem_ptrs
    (d := h.linkDentry c) hs.nextPtr_not_mem (fun _ _ => rfl) hk

theorem dParent_linked (hk : k ≠ h.nextPtr) :
    (h.linked dir di c table).dParent k = h.dParent k := by
  have hmap := Dcache.map_node?_plant (F := fun x => x.1) hs.held.nodup hl.mem_ptrs
    (d := h.linkDentry c) hs.nextPtr_not_mem (fun _ _ => rfl) hk
  have hbind := congrArg (fun o => (o.bind id).getD k) hmap
  simp only [Option.bind_map] at hbind
  exact hbind

omit hl in
theorem Sane.ne_of_mem (hk : k ∈ h.dcache.ptrs) : k ≠ h.nextPtr := fun heq =>
  hs.nextPtr_not_mem (heq ▸ hk)

/-- What lies at a path of the host with the link. -/
theorem atPath_linked : (h.linked dir di c table).AtPath path k ↔
    h.AtPath path k ∨ k = h.nextPtr ∧ ∃ pre, h.AtPath pre dir ∧ path = pre ++ [c.name] := by
  have hold : ∀ {path k}, h.AtPath path k → (h.linked dir di c table).AtPath path k := by
    intro path k ha
    refine AtPath.of_has (h := h) rfl (fun hroot => ?_) (fun p d hd hpos => ?_) ha
    · refine (Dcache.ptrs_listAdd_leaf (t := h.dcache.dget dir) (by simpa using hs.held.nodup)
        (by simpa using hl.mem_ptrs)).mem_iff.mpr (List.mem_cons_of_mem _ ?_)
      simpa using hroot
    · obtain ⟨b, -, hb⟩ := Dcache.covers_plant hs.held.nodup hl.mem_ptrs (h.linkDentry c) _ hd
        (positive_iff.mp hpos).1
      exact ⟨b, hb⟩
  constructor
  · intro ha
    induction ha with
    | root => exact .inl (.root hl.root_mem_ptrs)
    | @child path p d _ hd hpos ih =>
        rcases (mem_nodes_linked hs hl).mp hd with heq | hd
        · cases heq
          rcases ih with ih | ⟨hnew, -⟩
          · exact .inr ⟨rfl, path, ih, rfl⟩
          · exact absurd hnew (hs.ne_of_mem hl.mem_ptrs)
        · obtain ⟨b, hb⟩ := Dcache.within_update (f := Dentry.get) (fun _ => ⟨_, rfl⟩) _ hd
          have hp := hs.ne_of_mem (Dcache.parent_mem_ptrs hb)
          exact .inl (.child (d := d.withCount b) (ih.resolve_right fun hnew => hp hnew.1) hb hpos)
  · rintro (ha | ⟨rfl, pre, hpre, rfl⟩)
    · exact hold ha
    · exact .child (d := h.linkDentry c) (hold hpre) ((mem_nodes_linked hs hl).mpr (.inl rfl)) rfl

theorem dentryOf?_link :
    (h.linked dir di c table).dentryOf? h.nextPtr = some (some dir, h.linkDentry c) :=
  Dcache.node?_plant_self hs.held.nodup hl.mem_ptrs hs.nextPtr_not_mem rfl

omit hl in
theorem Sane.inode_ne {i : Ptr} (hi : h.dInode? k = some i) : i ≠ h.nextPtr + 1 := by
  obtain ⟨x, hx, hxi⟩ := Ready.exists_dentry hi
  exact Nat.ne_of_lt (Nat.lt_succ_of_lt (hs.inode_lt x (Dcache.mem_nodes_of_node? hx) i hxi))

omit hs hl in
theorem inodes_linked {i : Ptr} (hi : i ≠ h.nextPtr + 1) :
    (h.linked dir di c table).inodes i = h.inodes i := if_neg hi

omit hs hl in
theorem inodes_link :
    (h.linked dir di c table).inodes (h.nextPtr + 1) = h.newInode di (linkMode c.mode) := if_pos rfl

omit hs hl in
theorem AtPath.mem_ptrs (ha : h.AtPath path k) : k ∈ h.dcache.ptrs := by
  cases ha with
  | root hr => exact hr
  | child _ hd _ => exact Dcache.mem_ptrs_of_mem hd

theorem inodeOf?_linked (hk : k ≠ h.nextPtr) :
    (h.linked dir di c table).inodeOf? k = h.inodeOf? k := by
  unfold inodeOf?
  rw [dInode?_linked hs hl hk]
  cases hi : h.dInode? k with
  | none => rfl
  | some i => simp only [Option.map_some, inodes_linked (hs.inode_ne hi)]

theorem inodeOf?_link :
    (h.linked dir di c table).inodeOf? h.nextPtr = some (h.newInode di (linkMode c.mode)) := by
  unfold inodeOf? dInode?
  rw [dentryOf?_link hs hl]
  exact congrArg some inodes_link

omit hs hl in
theorem names_iff :
    h.Names path b ↔ ∃ k i, h.AtPath path k ∧ h.inodeOf? k = some i ∧ i.isDir = b := by
  simp only [Names, inodeOf?, Option.map_eq_some_iff]
  constructor
  · rintro ⟨k, i, ha, hi, hb⟩
    exact ⟨k, h.inodes i, ha, ⟨i, hi, rfl⟩, hb⟩
  · rintro ⟨k, _, ha, ⟨i, hi, rfl⟩, hb⟩
    exact ⟨k, i, ha, hi, hb⟩

theorem names_linked : (h.linked dir di c table).Names path b ↔
    h.Names path b ∨ (∃ pre, h.AtPath pre dir ∧ path = pre ++ [c.name]) ∧
      b = (linkMode c.mode).isDir := by
  simp only [names_iff, atPath_linked hs hl]
  constructor
  · rintro ⟨k, i, ha | ⟨rfl, hpre⟩, hi, rfl⟩
    · rw [inodeOf?_linked hs hl (hs.ne_of_mem ha.mem_ptrs)] at hi
      exact .inl ⟨k, i, ha, hi, rfl⟩
    · rw [inodeOf?_link hs hl] at hi
      cases hi
      exact .inr ⟨hpre, isDir_newInode ..⟩
  · rintro (⟨k, i, ha, hi, rfl⟩ | ⟨hpre, rfl⟩)
    · exact ⟨k, i, .inl ha, by rw [inodeOf?_linked hs hl (hs.ne_of_mem ha.mem_ptrs)]; exact hi, rfl⟩
    · exact ⟨h.nextPtr, _, .inr ⟨rfl, hpre⟩, inodeOf?_link hs hl, isDir_newInode ..⟩

omit hs hl in
theorem dParent_mem_ptrs (hk : k ∈ h.dcache.ptrs) : h.dParent k ∈ h.dcache.ptrs := by
  unfold dParent dentryOf?
  cases hx : h.dcache.node? k with
  | none => exact hk
  | some x =>
      obtain ⟨q, d⟩ := x
      cases q with
      | none => exact hk
      | some p => exact Dcache.parent_mem_ptrs (Dcache.mem_nodes_of_node? hx)

theorem frameFields_linked (hk : k ∈ h.dcache.ptrs) :
    (h.linked dir di c table).frameFields k = h.frameFields k := by
  have hne := hs.ne_of_mem hk
  have hpar := hs.ne_of_mem (dParent_mem_ptrs hk)
  unfold frameFields
  rw [dParent_linked hs hl hne, inodeOf?_linked hs hl hne, inodeOf?_linked hs hl hpar,
    dName?_linked hs hl hne, dName?_linked hs hl hpar]

variable (table) in
theorem frameFields_link : ∃ name, (h.linked dir di c table).frameFields h.nextPtr =
    .ok (h.lastIno + 1, c.name, h.number di, name) := by
  have hpar : (h.linked dir di c table).dParent h.nextPtr = dir := by
    unfold dParent
    rw [dentryOf?_link hs hl]
    rfl
  have hname : (h.linked dir di c table).dName? h.nextPtr = some c.name := by
    unfold dName?
    rw [dentryOf?_link hs hl]
    rfl
  have hdir : (h.linked dir di c table).inodeOf? dir = some (h.inodes di) := by
    rw [inodeOf?_linked hs hl (hs.ne_of_mem hl.mem_ptrs), inodeOf?, hl.inode]
    rfl
  obtain ⟨x, hx, -⟩ := Ready.exists_dentry hl.inode
  have hdname : (h.linked dir di c table).dName? dir = some x.2.dName := by
    rw [dName?_linked hs hl (hs.ne_of_mem hl.mem_ptrs), dName?, hx]
    rfl
  refine ⟨x.2.dName, ?_⟩
  unfold frameFields
  rw [hpar, hname, hdir, hdname, inodeOf?_link hs hl]
  simp only [iIno_newInode, number]

end Linked

/-! ## records -/

/-- What is recorded for a dentry: the remote numbers of the entry that the
clients find for it. -/
def recorded? (h : Host) (k : Ptr) : Option (CInt × CInt) :=
  match h.frameFields k with
  | .error _ => none
  | .ok (ino, _, inoParent, _) =>
      (Table.findUsed (Table.localMatch ino inoParent) h.table.entries).map
        fun e => (e.rdmaIno, e.rdmaParentIno)

/-- What is recorded for a path. -/
def Records (h : Host) (path : List Bytes) (r : CInt × CInt) : Prop :=
  ∃ k, h.AtPath path k ∧ h.recorded? k = some r

/-- A number that no dentry has and no entry in use. -/
def Unused (h : Host) (n : CInt) : Prop :=
  (∀ x ∈ h.dcache.nodes, ∀ i ∈ x.2.dInode, h.number i ≠ n) ∧ ∀ e ∈ h.table.live, e.localIno ≠ n

instance (h : Host) (n : CInt) : Decidable (h.Unused n) := by unfold Unused; infer_instance

theorem exists_dInode?_of_frameFields {ino inoParent : CInt} {name nameParent : Bytes}
    (hf : h.frameFields k = .ok (ino, name, inoParent, nameParent)) :
    ∃ i, h.dInode? k = some i ∧ h.number i = ino := by
  unfold frameFields at hf
  split at hf
  · next i _ _ _ hi _ _ _ =>
      obtain ⟨j, hj, rfl⟩ := Option.map_eq_some_iff.mp hi
      cases hf
      exact ⟨j, hj, rfl⟩
  · cases hf

section Records

variable (hs : h.Sane) (hl : h.Linkable env c dir di) {ip : Bytes}
  (hins : h.table.insert (h.linkEntry di c ip) = .ok table) (hfree : h.Unused (h.lastIno + 1))
include hs hl hins hfree

/-- The new entry has another number than the dentries that were there. -/
theorem recorded?_linked (hk : k ∈ h.dcache.ptrs) :
    (h.linked dir di c table).recorded? k = h.recorded? k := by
  unfold recorded?
  rw [frameFields_linked hs hl hk]
  cases hf : h.frameFields k with
  | error e => rfl
  | ok y =>
      obtain ⟨ino, name, inoParent, nameParent⟩ := y
      obtain ⟨i, hi, rfl⟩ := exists_dInode?_of_frameFields hf
      obtain ⟨x, hx, hxi⟩ := Ready.exists_dentry hi
      have hne := hfree.1 x (Dcache.mem_nodes_of_node? hx) i hxi
      refine congrArg (Option.map _) (Table.findUsed_fillFirst (fun e => ?_)
        (Table.fillFirst_of_insert hins))
      exact Bool.and_eq_false_iff.mpr (.inl (beq_eq_false_iff_ne.mpr hne.symm))

/-- No other entry has the number of the link. -/
theorem recorded?_link :
    (h.linked dir di c table).recorded? h.nextPtr = some (c.ino, c.inoParent) := by
  obtain ⟨e, he⟩ : ∃ e, Table.findUsed (Table.localMatch (h.lastIno + 1) (h.number di))
      table.entries = some (h.linkEntry di c ip e) := by
    refine Table.exists_findUsed_fillFirst (fun _ => rfl) (fun e => ?_) (fun e he hu => ?_)
      (Table.fillFirst_of_insert hins)
    · simp [Table.localMatch, linkEntry, Entry.fill, number]
    · have hne := hfree.2 e (List.mem_filter.mpr ⟨he, hu⟩)
      exact Bool.and_eq_false_iff.mpr (.inl (beq_eq_false_iff_ne.mpr hne))
  obtain ⟨nameParent, hlink⟩ := frameFields_link table hs hl
  unfold recorded?
  rw [hlink]
  exact congrArg (Option.map _) he

theorem records_linked : (h.linked dir di c table).Records path r ↔ h.Records path r ∨
    (∃ pre, h.AtPath pre dir ∧ path = pre ++ [c.name]) ∧ r = (c.ino, c.inoParent) := by
  simp only [Records, atPath_linked hs hl]
  constructor
  · rintro ⟨k, ha | ⟨rfl, hpre⟩, hr⟩
    · rw [recorded?_linked hs hl hins hfree ha.mem_ptrs] at hr
      exact .inl ⟨k, ha, hr⟩
    · rw [recorded?_link hs hl hins hfree] at hr
      exact .inr ⟨hpre, (Option.some.inj hr).symm⟩
  · rintro (⟨k, ha, hr⟩ | ⟨hpre, rfl⟩)
    · exact ⟨k, .inl ha, (recorded?_linked hs hl hins hfree ha.mem_ptrs).trans hr⟩
    · exact ⟨h.nextPtr, .inr ⟨rfl, hpre⟩, recorded?_link hs hl hins hfree⟩

end Records

/-! ## the search for a directory -/

/-- The dentries that the search looks at, in order. -/
def seen (h : Host) : List Dentry := visit h.inodes (h.dcache.subdirs h.root)

/-- What the search knows of a dentry. -/
def look (d : Dentry) : Bytes × Ptr × Option Ptr := (d.dName, d.ptr, d.dInode)

/-- Every dentry looked at is in the tree. -/
theorem exists_of_mem_seen (hn : h.dcache.ptrs.Nodup) {d : Dentry} (hd : d ∈ h.seen) :
    ∃ q, (q, d) ∈ h.dcache.nodes := by
  obtain ⟨q, hq⟩ := exists_of_mem_visit (some h.root) hd
  exact ⟨q, Forest.flat_sub_subset hn hq⟩

theorem resolveParent_eq (h : Host) (n : Bytes) : h.resolveParent n =
    if h.dName? h.root = some n then some h.root
    else ((h.seen.map look).find? fun x => x.1 == n).map fun x => x.2.1 := by
  unfold resolveParent findFromAllDentry
  rw [findSubdirs_eq, List.find?_map, Option.map_map]
  rfl

/-- A search that only stops at elements that are kept. -/
theorem find?_filter_of_imp {α : Type*} {l : List α} {p q : α → Bool}
    (h : ∀ x ∈ l, q x = true → p x = true) : (l.filter p).find? q = l.find? q := by
  rw [← List.head?_filter, ← List.head?_filter, List.filter_filter]
  refine congrArg List.head? (List.filter_congr fun x hx => ?_)
  cases hq : q x with
  | false => rfl
  | true => rw [h x hx hq]; rfl

section Search

variable (hs : h.Sane)
include hs

variable (hl : h.Linkable env c dir di)
include hl

omit hl in
variable (c dir di table) in
/-- The reference that the new dentry holds to its parent does not matter, nor
does its inode. -/
theorem map_look_dget : (visit (h.linked dir di c table).inodes
    ((h.dcache.dget dir).subdirs h.root)).map look = h.seen.map look := by
  have hn : (h.dcache.dget dir).ptrs.Nodup := by simpa using hs.held.nodup
  have hsame : visit (h.linked dir di c table).inodes ((h.dcache.dget dir).subdirs h.root) =
      visit h.inodes ((h.dcache.dget dir).subdirs h.root) := by
    refine visit_congr (some h.root) fun x hx i hi => ?_
    obtain ⟨b, hb⟩ := Dcache.within_update (f := Dentry.get) (fun _ => ⟨_, rfl⟩) _
      (Forest.flat_sub_subset hn hx)
    have hlt := hs.inode_lt _ hb i hi
    rw [inodes_linked (Nat.ne_of_lt (Nat.lt_succ_of_lt hlt))]
  rw [hsame, Dcache.dget, Dcache.subdirs_update Dcache.keeps_get]
  exact map_visit_update dir (fun _ => rfl) fun _ => rfl

/-- The tree that is searched once the link is there. -/
theorem subdirs_linked : (h.linked dir di c table).dcache.subdirs h.root =
    if dir = h.root then .cons (h.linkDentry c) .nil ((h.dcache.dget dir).subdirs h.root)
    else Forest.graft Dentry.ptr dir ((h.dcache.dget dir).subdirs h.root)
      (.cons (h.linkDentry c) .nil .nil) := by
  have hn : (h.dcache.dget dir).ptrs.Nodup := by simpa using hs.held.nodup
  split
  · next hroot =>
      subst hroot
      have hmem : h.root ∈ (h.dcache.dget h.root).ptrs := by simpa using hl.mem_ptrs
      exact Forest.sub_graft_self hn hmem
  · next hroot =>
      exact Forest.sub_graft hn (Ne.symm hroot) (hs.ne_of_mem hl.root_mem_ptrs)

omit hs hl in
theorem isZero_link :
    ((h.linked dir di c table).inodes (h.nextPtr + 1)).iMode.isZero = false := by
  rw [inodes_link]
  exact isZero_newInode h di _ (linkMode_fmt c.mode)

omit hs hl in
theorem visit_link (t : Dcache) :
    visit (h.linked dir di c table).inodes (.cons (h.linkDentry c) .nil t) =
      h.linkDentry c :: visit (h.linked dir di c table).inodes t := by
  have hi : (h.linkDentry c).dInode = some (h.nextPtr + 1) := rfl
  rw [visit, hi]
  simp only [isZero_link, Bool.false_eq_true, if_false, visit, ite_self, List.nil_append]

variable (table) in
/-- With the link the search looks at the other dentries in the same order. -/
theorem map_look_linked :
    ((h.linked dir di c table).seen.map look).filter (fun x => x.2.1 ≠ h.nextPtr) =
      h.seen.map look := by
  have hnew : h.nextPtr ∉ Forest.keys Dentry.ptr ((h.dcache.dget dir).subdirs h.root) := fun hm =>
    hs.nextPtr_not_mem (Dcache.ptrs_dget ▸ Forest.keys_sub_subset hm)
  rw [← map_look_dget c dir di table hs]
  rw [List.filter_map]
  refine congrArg (List.map look) ?_
  unfold seen
  rw [show (h.linked dir di c table).root = h.root from rfl, subdirs_linked hs hl]
  split
  · rw [visit_link, List.filter_cons_of_neg (by simp [look, liveDentry, negDentry])]
    exact filter_visit hnew
  · exact filter_visit_graft (d := h.linkDentry c) rfl hnew

/-- And it looks at the link. -/
theorem link_mem_seen : h.linkDentry c ∈ (h.linked dir di c table).seen := by
  unfold seen
  rw [show (h.linked dir di c table).root = h.root from rfl, subdirs_linked hs hl]
  split
  · rw [visit_link]
    exact List.mem_cons_self
  · next hroot =>
      -- the search has found the directory
      have hpar := hl.parent
      unfold resolveParent at hpar
      split at hpar
      · exact absurd (Option.some.inj hpar).symm hroot
      obtain ⟨a, ha, rfl⟩ := Option.map_eq_some_iff.mp hpar
      rw [findFromAllDentry, findSubdirs_eq] at ha
      have hseen : a ∈ h.seen := List.mem_of_find?_eq_some ha
      obtain ⟨q, hq⟩ := exists_of_mem_seen hs.held.nodup hseen
      have hai : a.dInode = some di := (dInode?_of_mem hs.held.nodup hq).symm.trans hl.inode
      have hlook := List.mem_map_of_mem (f := look) hseen
      rw [← map_look_dget c a.ptr di table hs] at hlook
      obtain ⟨a', ha', heq⟩ := List.mem_map.mp hlook
      obtain ⟨-, hptr, hino⟩ : a'.dName = a.dName ∧ a'.ptr = a.ptr ∧ a'.dInode = a.dInode := by
        simpa [look] using heq
      have hn : (h.dcache.dget a.ptr).ptrs.Nodup := by simpa using hs.held.nodup
      have hdir : ((h.linked a.ptr di c table).inodes di).isDir = true := by
        rw [inodes_linked (hs.inode_ne hl.inode)]
        exact hl.isDir
      exact mem_visit_graft (Forest.nodup_keys_sub hn) rfl isZero_link ha' hptr (hino.trans hai)
        hdir

variable (table) in
/-- The search for another name leads where it did before. -/
theorem resolveParent_linked {n : Bytes} (hne : n ≠ c.name) :
    (h.linked dir di c table).resolveParent n = h.resolveParent n := by
  have hroot : (h.linked dir di c table).dName? (h.linked dir di c table).root = h.dName? h.root :=
    dName?_linked hs hl (hs.ne_of_mem hl.root_mem_ptrs)
  have hn : (h.linked dir di c table).dcache.ptrs.Nodup :=
    Dcache.nodup_plant hs.held.nodup hl.mem_ptrs hs.nextPtr_not_mem
  rw [resolveParent_eq, resolveParent_eq, hroot, ← map_look_linked table hs hl]
  have hfind : ∀ x ∈ (h.linked dir di c table).seen.map look, (x.1 == n) = true →
      decide (x.2.1 ≠ h.nextPtr) = true := by
    intro x hx hxn
    obtain ⟨d, hd, rfl⟩ := List.mem_map.mp hx
    obtain ⟨q, hq⟩ := exists_of_mem_seen hn hd
    refine decide_eq_true fun hptr => hne ?_
    have heq : (q, d) = (some dir, h.linkDentry c) :=
      Forest.eq_of_mem_flat hn hq ((mem_nodes_linked hs hl).mpr (.inl rfl)) hptr
    cases heq
    exact (beq_iff_eq.mp hxn).symm
  rw [find?_filter_of_imp hfind]
  rfl

variable (table) in
/-- The search for the name of the link leads to it, if no other dentry has the
name. -/
theorem resolveParent_link (hname : ∀ x ∈ h.dcache.nodes, x.2.dName ≠ c.name) :
    (h.linked dir di c table).resolveParent c.name = some h.nextPtr := by
  have hroot : (h.linked dir di c table).dName? (h.linked dir di c table).root = h.dName? h.root :=
    dName?_linked hs hl (hs.ne_of_mem hl.root_mem_ptrs)
  have hne : h.dName? h.root ≠ some c.name := fun heq => by
    obtain ⟨x, hx, hxn⟩ := Option.map_eq_some_iff.mp heq
    exact hname x (Dcache.mem_nodes_of_node? hx) hxn
  rw [resolveParent_eq, hroot, if_neg hne]
  have hsome : (((h.linked dir di c table).seen.map look).find?
      fun x => x.1 == c.name).isSome = true :=
    List.find?_isSome.mpr ⟨_, List.mem_map_of_mem (link_mem_seen hs hl), beq_self_eq_true _⟩
  obtain ⟨y, hy⟩ := Option.isSome_iff_exists.mp hsome
  have hyn : y.1 = c.name := by simpa using List.find?_some hy
  rw [hy, Option.map_some]
  by_contra hnew
  have hmem : y ∈ ((h.linked dir di c table).seen.map look).filter
      fun x => x.2.1 ≠ h.nextPtr :=
    List.mem_filter.mpr ⟨List.mem_of_find?_eq_some hy,
      decide_eq_true fun heq => hnew (congrArg some heq)⟩
  rw [map_look_linked table hs hl] at hmem
  obtain ⟨d, hd, rfl⟩ := List.mem_map.mp hmem
  obtain ⟨q, hq⟩ := exists_of_mem_seen hs.held.nodup hd
  exact hname _ hq hyn

end Search

/-- A name that resolves belongs to a dentry. -/
theorem exists_of_resolveParent (hn : h.dcache.ptrs.Nodup) (hk : h.resolveParent n = some k) :
    ∃ x ∈ h.dcache.nodes, x.2.dName = n ∧ x.2.ptr = k := by
  unfold resolveParent at hk
  split at hk
  · next hname =>
      obtain ⟨x, hx, hxn⟩ := Option.map_eq_some_iff.mp hname
      cases hk
      exact ⟨x, Dcache.mem_nodes_of_node? hx, hxn, Dcache.ptr_of_node? hx⟩
  · obtain ⟨d, hd, rfl⟩ := Option.map_eq_some_iff.mp hk
    rw [findFromAllDentry, findSubdirs_eq] at hd
    obtain ⟨q, hq⟩ := exists_of_mem_seen hn (List.mem_of_find?_eq_some hd)
    exact ⟨(q, d), hq, by simpa using List.find?_some hd, rfl⟩

end Host

end Wjfs
