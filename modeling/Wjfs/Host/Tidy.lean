import Wjfs.Dcache.Plant
import Wjfs.Host.Laws

/-!
# Wjfs.Host.Tidy

The invariant that every run keeps: all references accounted for, every
dentry live, every parent a directory that is not dead, and no directory with
two names.

`pin` says which dentries the filesystem holds a reference to.  The calls only
ever change it for a new dentry, or for a link that a peer takes back.
-/

namespace Wjfs

namespace Host

/-- A dentry as a user of the tree may rely on it: hashed, positive, not a
mount point, and killed by its last `dput`. -/
def Live (d : Dentry) : Prop :=
  d.dUnhashed = false ∧ d.dOp = true ∧ d.dMounted = false ∧ d.dInode.isSome = true

/-- What a call relies on while it runs, whatever references are held. -/
structure Ready (h : Host) : Prop where
  nodup : h.dcache.ptrs.Nodup
  pos : ∀ x ∈ h.dcache.nodes, 1 ≤ x.2.dCount
  live : ∀ p d, (some p, d) ∈ h.dcache.nodes → Live d
  ptr_lt : ∀ x ∈ h.dcache.nodes, x.2.ptr < h.nextPtr
  inode_lt : ∀ x ∈ h.dcache.nodes, ∀ i, x.2.dInode = some i → i < h.nextPtr
  alive : ∀ x ∈ h.dcache.nodes, ∀ i, x.2.dInode = some i →
    (h.inodes i).dead = false ∧ (h.inodes i).iMode.isZero = false

/-- How many files are open on a dentry. -/
def opens (h : Host) (k : Ptr) : Nat := h.files.count k

/-- A host in order. -/
structure Tidy (pin : Ptr → Nat) (h : Host) : Prop where
  ready : h.Ready
  sound : h.dcache.Sound h.root h.opens pin
  file_lt : ∀ k ∈ h.files, k < h.nextPtr
  dirs : ∀ p d, (some p, d) ∈ h.dcache.nodes →
    ∃ i, h.dInode? p = some i ∧ (h.inodes i).isDir = true
  root_dir : ∃ i, h.dInode? h.root = some i ∧ (h.inodes i).isDir = true
  dir_unique : ∀ x ∈ h.dcache.nodes, ∀ y ∈ h.dcache.nodes, ∀ i, x.2.dInode = some i →
    y.2.dInode = some i → (h.inodes i).isDir = true → x = y

/-- A host whose every dentry but the root is pinned once. -/
def onePin (h : Host) : Ptr → Nat := fun k => if k = h.root then 2 else 1

variable {pin : Ptr → Nat} {h : Host} {k i : Ptr} {d : Dentry} {env : Env} {path : List Bytes}

namespace Ready

/-- An address that holds an inode is the address of a dentry. -/
theorem exists_dentry (hi : h.dInode? k = some i) :
    ∃ x, h.dentryOf? k = some x ∧ x.2.dInode = some i := Option.bind_eq_some_iff.mp hi

theorem nextPtr_not_mem (ht : h.Ready) : h.nextPtr ∉ h.dcache.ptrs := by
  intro hm
  obtain ⟨x, hx, hxk⟩ := Forest.exists_mem_flat hm none
  exact Nat.ne_of_lt (ht.ptr_lt x hx) hxk

/-- A host is as ready as another whose dentries include its own, up to the
counts, and whose inodes are of the same kind. -/
theorem within {h' : Host} (ht : h.Ready) (hw : Dcache.Within h'.dcache h.dcache)
    (hn : h'.dcache.ptrs.Nodup) (hpos : ∀ x ∈ h'.dcache.nodes, 1 ≤ x.2.dCount)
    (hnext : h.nextPtr ≤ h'.nextPtr)
    (hkind : ∀ x ∈ h'.dcache.nodes, ∀ i, x.2.dInode = some i →
      (h'.inodes i).SameKind (h.inodes i)) : h'.Ready where
  nodup := hn
  pos := hpos
  live p d hd := by
    obtain ⟨c, hc⟩ := hw _ hd
    exact ht.live p (d.withCount c) hc
  ptr_lt x hx := by
    obtain ⟨c, hc⟩ := hw x hx
    exact Nat.lt_of_lt_of_le (ht.ptr_lt (x.1, x.2.withCount c) hc) hnext
  inode_lt x hx i hi := by
    obtain ⟨c, hc⟩ := hw x hx
    exact Nat.lt_of_lt_of_le (ht.inode_lt _ hc i hi) hnext
  alive x hx i hi := by
    obtain ⟨c, hc⟩ := hw x hx
    obtain ⟨hmode, hdead, -⟩ := hkind x hx i hi
    rw [hmode, hdead]
    exact ht.alive _ hc i hi

/-- Taking a reference leaves the host ready. -/
theorem dget (ht : h.Ready) (k : Ptr) : (h.dget k).Ready := by
  refine ht.within (Dcache.within_update fun d => ⟨_, rfl⟩) (by simpa using ht.nodup) ?_
    (Nat.le_refl _) fun x _ i _ => ⟨rfl, rfl, rfl⟩
  intro y hy
  rw [dcache_dget, Dcache.dget, Dcache.nodes_update Dcache.keeps_get] at hy
  obtain ⟨z, hz, rfl⟩ := List.mem_map.mp hy
  have hpos := ht.pos z hz
  by_cases hk : z.2.ptr = k
  · simp only [if_pos hk, Dentry.get]
    omega
  · simp only [if_neg hk]
    exact hpos

end Ready

end Host

end Wjfs
