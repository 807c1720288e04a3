import Wjfs.Basic
import Wjfs.Forest

/-!
# Wjfs.Dcache

The dentry tree of one mounted instance and the primitives of `fs/dcache.c`
and `fs/libfs.c` that work on it.

The tree is a `Forest` whose only top node is the root dentry; the children
of a node stand in `d_subdirs` order, so `list_add` puts a child first.
References are counted as the C does, by hand: nothing here ties `dCount` to
the shape of the tree.
-/

namespace Wjfs

/-- `struct dentry`.  `dUnhashed` is the flag `DCACHE_UNHASHED`; `dOp` says
that `d_op` is `simple_dentry_operations`, whose `d_delete` always returns 1;
`dMounted` is `d_mountpoint`. -/
structure Dentry where
  ptr : Ptr
  dName : Bytes
  dInode : Option Ptr
  dCount : Int
  dUnhashed : Bool
  dOp : Bool
  dMounted : Bool
deriving DecidableEq, Repr

namespace Dentry

/-- `dget` on the record. -/
def get (d : Dentry) : Dentry := { d with dCount := d.dCount + 1 }

/-- One reference less, as `atomic_dec(&dentry->d_count)`. -/
def dec (d : Dentry) : Dentry := { d with dCount := d.dCount - 1 }

/-- `__d_drop`. -/
def drop (d : Dentry) : Dentry := { d with dUnhashed := true }

/-- `__d_rehash`. -/
def rehash (d : Dentry) : Dentry := { d with dUnhashed := false }

/-- What `wjfs_lookup` does to a new dentry: `d_op` is set and
`d_add(dentry, NULL)` hashes it. -/
def added (d : Dentry) : Dentry := { d with dOp := true, dUnhashed := false }

/-- `__d_instantiate`. -/
def instantiate (i : Ptr) (d : Dentry) : Dentry := { d with dInode := some i }

/-- `dentry_iput`: the dentry becomes negative. -/
def iput (d : Dentry) : Dentry := { d with dInode := none }

/-- The dentry with another reference count. -/
def withCount (d : Dentry) (c : Int) : Dentry := { d with dCount := c }

/-- `simple_positive`. -/
def positive (d : Dentry) : Bool := d.dInode.isSome && !d.dUnhashed

section Fields

variable (d : Dentry)

@[simp] theorem ptr_get : d.get.ptr = d.ptr := rfl
@[simp] theorem ptr_dec : d.dec.ptr = d.ptr := rfl
@[simp] theorem ptr_drop : d.drop.ptr = d.ptr := rfl
@[simp] theorem ptr_rehash : d.rehash.ptr = d.ptr := rfl
@[simp] theorem ptr_iput : d.iput.ptr = d.ptr := rfl
@[simp] theorem ptr_withCount (c : Int) : (d.withCount c).ptr = d.ptr := rfl
@[simp] theorem withCount_withCount (b c : Int) : (d.withCount b).withCount c = d.withCount c := rfl
@[simp] theorem withCount_dCount : d.withCount d.dCount = d := rfl
@[simp] theorem dec_get : d.get.dec = d := by simp [get, dec]
@[simp] theorem get_dec : d.dec.get = d := by simp [get, dec]

end Fields

end Dentry

/-- The dentries of one instance, keyed by their address. -/
abbrev Dcache := Forest Dentry

namespace Dcache

/-- The dentry at an address, with the address of its parent. -/
def node? (t : Dcache) (k : Ptr) : Option (Option Ptr × Dentry) := Forest.node? Dentry.ptr k t

/-- Rewrite the dentry at an address. -/
def update (t : Dcache) (k : Ptr) (f : Dentry → Dentry) : Dcache := Forest.modify Dentry.ptr k f t

/-- `d_subdirs` of a dentry. -/
def subdirs (t : Dcache) (k : Ptr) : Dcache := Forest.sub Dentry.ptr k t

/-- `list_del(&dentry->d_u.d_child)`. -/
def unlinkChild (t : Dcache) (k : Ptr) : Dcache := Forest.erase Dentry.ptr k t

/-- `list_add(&dentry->d_u.d_child, &parent->d_subdirs)` of the trees `g`. -/
def listAdd (t : Dcache) (parent : Ptr) (g : Dcache) : Dcache := Forest.graft Dentry.ptr parent t g

/-- All dentries, each with the address of its parent. -/
def nodes (t : Dcache) : List (Option Ptr × Dentry) := Forest.flat Dentry.ptr none t

/-- `dget`. -/
def dget (t : Dcache) (k : Ptr) : Dcache := t.update k Dentry.get

/-- The loop of `dput`: drop one reference; a dentry that loses its last one
is killed if `d_delete` says so or if it is unhashed, and then the loop goes
on with its parent.  Otherwise it stays, on the LRU list.  A pointer that is
not in the tree stands for `NULL`. -/
def dputLoop : Nat → Dcache → Ptr → Dcache
  | 0, t, _ => t
  | fuel + 1, t, k =>
      match t.node? k with
      | none => t
      | some (parent, d) =>
          if d.dCount - 1 ≠ 0 then t.update k Dentry.dec
          else if d.dOp || d.dUnhashed then
            match parent with
            | none => t.unlinkChild k
            | some p => dputLoop fuel (t.unlinkChild k) p
          else t.update k Dentry.dec

/-- `dput`.  The loop climbs, so the size of the tree bounds it. -/
def dput (t : Dcache) (k : Ptr) : Dcache := dputLoop (Forest.size t) t k

/-- The dentry that `d_alloc` makes: one reference, unhashed, negative. -/
def newDentry (ptr : Ptr) (name : Bytes) : Dentry where
  ptr := ptr
  dName := name
  dInode := none
  dCount := 1
  dUnhashed := true
  dOp := false
  dMounted := false

/-- A dentry without children. -/
def leaf (d : Dentry) : Dcache := .cons d .nil .nil

/-- `d_alloc(parent, name)` at address `new`. -/
def dAlloc (t : Dcache) (parent : Ptr) (name : Bytes) (new : Ptr) : Dcache :=
  (t.dget parent).listAdd parent (leaf (newDentry new name))

/-- `__d_lookup`: the hashed child of that name. -/
def dLookup (t : Dcache) (parent : Ptr) (name : Bytes) : Option Dentry :=
  (t.subdirs parent).roots.find? fun c => !c.dUnhashed && c.dName == name

/-- `simple_empty`: no child is hashed and positive. -/
def simpleEmpty (t : Dcache) (k : Ptr) : Bool := (t.subdirs k).roots.all fun c => !c.positive

/-- `d_delete` of a positive dentry: its only user makes it negative, any
other unhashes it. -/
def dDelete (t : Dcache) (k : Ptr) : Dcache :=
  t.update k fun d => if d.dCount = 1 then d.iput else d.drop

/-- `dentry_unhash`.  `shrink_dcache_parent` prunes the children on the LRU
list, and no dentry of this filesystem is ever put there. -/
def dentryUnhash (t : Dcache) (k : Ptr) : Dcache :=
  (t.dget k).update k fun d => if d.dCount = 2 then d.drop else d

/-- `switch_names`, for the name the target is left with: two inline names
(below `DNAME_INLINE_LEN`, 40 bytes with the NUL) are copied, others are
exchanged. -/
def switchedName (dentry target : Bytes) : Bytes :=
  if dentry.length < 40 ∧ target.length < 40 then target else dentry

/-- `d_move(dentry, target)`: `dentry` takes the name and the place of
`target` and is hashed; `target` is unhashed and goes to the old parent. -/
def dMove (t : Dcache) (dentry target : Ptr) : Dcache :=
  match t.node? dentry, t.node? target with
  | some (some oldParent, d), some (some newParent, e) =>
      let d' := { d.rehash with dName := e.dName }
      let e' := { e.drop with dName := switchedName d.dName e.dName }
      let t₁ := (t.unlinkChild dentry).unlinkChild target
      let t₂ := t₁.listAdd oldParent (.cons e' (t.subdirs target) .nil)
      t₂.listAdd newParent (.cons d' (t.subdirs dentry) .nil)
  | _, _ => t

/-- `d_ancestor(p1, p2)`: the child of `p1` under which `p2` lies. -/
def dAncestor (t : Dcache) (p1 p2 : Ptr) : Option Ptr :=
  ((t.subdirs p1).roots.find? fun c =>
    c.ptr == p2 || decide (p2 ∈ Forest.keys Dentry.ptr (t.subdirs c.ptr))).map Dentry.ptr

end Dcache

end Wjfs
