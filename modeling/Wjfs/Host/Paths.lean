import Wjfs.Host.Grow
import Wjfs.Namespace

/-!
# Wjfs.Host.Paths

Paths of a sane host: a path leads to one dentry, `path_walk` finds it, and
what keeps the dentries of a host keeps its paths.
-/

namespace Wjfs

namespace Host

variable {h h' : Host} {env : Env} {path rest : List Bytes} {name : Bytes} {p q k i : Ptr}
  {d : Dentry} {b : Bool}

theorem positive_iff : d.positive = true ↔ d.dInode.isSome = true ∧ d.dUnhashed = false := by
  simp [Dentry.positive]

namespace AtPath

theorem nil_inv (ha : h.AtPath [] k) : k = h.root := by
  generalize hl : ([] : List Bytes) = l at ha
  cases ha with
  | root => rfl
  | child => simp at hl

/-- The last step of a path. -/
theorem snoc_inv (ha : h.AtPath (path ++ [name]) k) :
    ∃ p d, h.AtPath path p ∧ (some p, d) ∈ h.dcache.nodes ∧ d.positive = true ∧ d.dName = name ∧
      d.ptr = k := by
  generalize hl : path ++ [name] = l at ha
  cases ha with
  | root => simp at hl
  | @child path' p d hp hd hpos =>
      obtain ⟨rfl, hn⟩ := List.append_inj' hl rfl
      exact ⟨p, d, hp, hd, hpos, (List.singleton_injective hn).symm, rfl⟩

/-- A path leads to one dentry. -/
theorem unique (hs : h.Sane) (ha : h.AtPath path k) (hb : h.AtPath path q) : k = q := by
  induction ha generalizing q with
  | root => exact (nil_inv hb).symm
  | @child path p d _ hd hpos ih =>
      obtain ⟨p', e, hp', he, hpos', hname, rfl⟩ := snoc_inv hb
      obtain rfl := ih hp'
      exact hs.held.distinct p d e hd he (positive_iff.mp hpos).2 (positive_iff.mp hpos').2
        hname.symm

/-- What a path through a dentry leads to lies below it. -/
theorem at_or_below (hs : h.Sane) (ha : h.AtPath path k) (hb : h.AtPath (path ++ rest) q) :
    q = k ∨ q ∈ Forest.keys Dentry.ptr (h.dcache.subdirs k) := by
  have hn := hs.held.nodup
  -- induction from the end of the path
  induction rest using List.reverseRecOn generalizing q with
  | nil =>
      rw [List.append_nil] at hb
      exact .inl (unique hs hb ha)
  | append_singleton rest name ih =>
      rw [← List.append_assoc] at hb
      obtain ⟨p, d, hp, hd, -, -, rfl⟩ := snoc_inv hb
      rcases ih hp with rfl | hbelow
      · exact .inr (Dcache.mem_keys_subdirs hn hd)
      · exact .inr (Forest.keys_sub_trans hn hbelow (Dcache.mem_keys_subdirs hn hd))

/-- A path that goes on has a next step. -/
theorem step (ha : h.AtPath (path ++ name :: rest) k) :
    ∃ p d, h.AtPath path p ∧ (some p, d) ∈ h.dcache.nodes ∧ d.positive = true ∧ d.dName = name ∧
      h.AtPath (path ++ [name]) d.ptr := by
  induction rest using List.reverseRecOn generalizing k with
  | nil =>
      obtain ⟨p, d, hp, hd, hpos, hname, rfl⟩ := snoc_inv ha
      exact ⟨p, d, hp, hd, hpos, hname, ha⟩
  | append_singleton rest last ih =>
      rw [← List.cons_append, ← List.append_assoc] at ha
      obtain ⟨_, _, hp, -⟩ := snoc_inv ha
      exact ih hp

/-- Only what the dentries are called, where they are, and whether they are
there counts. -/
theorem of_has (hroot : h'.root = h.root) (hmem : h.root ∈ h.dcache.ptrs → h.root ∈ h'.dcache.ptrs)
    (hhas : ∀ p d, (some p, d) ∈ h.dcache.nodes → d.positive = true →
      h'.dcache.Has (some p, d)) (ha : h.AtPath path k) : h'.AtPath path k := by
  induction ha with
  | root hr =>
      rw [← hroot]
      exact .root (hroot ▸ hmem hr)
  | @child path p d _ hd hpos ih =>
      obtain ⟨c, hc⟩ := hhas p d hd hpos
      exact .child (d := d.withCount c) ih hc hpos

/-- Where a path led before a dentry was renamed: to the same dentry, unless it
goes through the new name. -/
theorem of_redirected (hred : h.dcache.Redirected h'.dcache q k name) (hroot : h'.root = h.root)
    (hmem : h.root ∈ h.dcache.ptrs) {j : Ptr} (ha : h'.AtPath path j) :
    h.AtPath path j ∨ ∃ pre rest, path = pre ++ name :: rest ∧ h.AtPath pre q := by
  induction ha with
  | root =>
      rw [hroot]
      exact .inl (.root hmem)
  | @child path p d _ hd hpos ih =>
      rcases ih with ih | ⟨pre, rest, rfl, hpre⟩
      · rcases hred p d hd hpos with ⟨rfl, hname, -⟩ | ⟨-, b, hb, hbpos, hbn, hbp⟩
        · exact .inr ⟨path, [], by rw [hname], ih⟩
        · rw [← hbn, ← hbp]
          exact .inl (.child ih hb hbpos)
      · exact .inr ⟨pre, rest ++ [d.dName], by simp, hpre⟩

end AtPath

/-- A walk starts at a dentry with an inode. -/
theorem exists_dInode?_of_walk (hw : h.walk env k path = .ok q) : ∃ i, h.dInode? k = some i := by
  cases hi : h.dInode? k with
  | some i => exact ⟨i, rfl⟩
  | none =>
      cases path with
      | nil | cons =>
          simp only [walk, inodeOf?, hi, Option.map_none] at hw
          cases hw

/-- What a walk leads to is at the path. -/
theorem atPath_of_walk (hs : h.Sane) (hw : h.walk env k rest = .ok q) (ha : h.AtPath path k) :
    h.AtPath (path ++ rest) q := by
  induction rest generalizing path k with
  | nil =>
      unfold walk at hw
      split at hw
      · cases hw
      split at hw
      · cases hw
        rw [List.append_nil]
        exact ha
      · cases hw
  | cons name rest ih =>
      obtain ⟨d, hl, hgo⟩ : ∃ d, h.dcache.dLookup k name = some d ∧
          h.walk env d.ptr rest = .ok q := by
        unfold walk at hw
        split at hw
        · cases hw
        split at hw
        · cases hw
        split at hw
        · cases hw
        split at hw
        · cases hw
        next d hl => exact ⟨d, hl, hw⟩
      obtain ⟨-, hhash, rfl⟩ := Dcache.dLookup_some hl
      have hd := Dcache.mem_nodes_of_node? (dentryOf?_of_dLookup hs.held.nodup hl)
      -- the walk goes on, so the dentry has an inode
      have hsome : d.dInode.isSome = true := by
        obtain ⟨i, hi⟩ := exists_dInode?_of_walk hgo
        rw [dInode?_of_mem (x := (some k, d)) hs.held.nodup hd] at hi
        exact Option.isSome_iff_exists.mpr ⟨i, hi⟩
      have hstep := ih hgo (.child ha hd (positive_iff.mpr ⟨hsome, hhash⟩))
      rwa [List.append_assoc] at hstep

/-- A walk from the root. -/
theorem atPath_of_walk_root (hs : h.Sane) (hw : h.walk env h.root path = .ok q) :
    h.AtPath path q := by
  obtain ⟨i, hi⟩ := exists_dInode?_of_walk hw
  obtain ⟨x, hx, -⟩ := Ready.exists_dentry hi
  have hstart : h.AtPath [] h.root := .root (Dcache.mem_ptrs_of_node? hx)
  exact atPath_of_walk hs hw hstart

/-- The dentry that a lookup in a directory at a path finds. -/
theorem atPath_of_dLookup (hs : h.Sane) (ha : h.AtPath path p)
    (hl : h.dcache.dLookup p name = some d) (hi : d.dInode = some i) :
    h.AtPath (path ++ [name]) d.ptr := by
  obtain ⟨-, hhash, rfl⟩ := Dcache.dLookup_some hl
  exact .child ha (Dcache.mem_nodes_of_node? (dentryOf?_of_dLookup hs.held.nodup hl))
    (positive_iff.mpr ⟨by rw [hi]; rfl, hhash⟩)

end Host

end Wjfs
