import Wjfs.Dcache
import Wjfs.Frame
import Wjfs.Inode
import Wjfs.Table

/-!
# Wjfs.Host

The state of one host and the pieces of the VFS that find dentries in it.

A host is one mounted instance: its dentry tree, its inodes, the mapping
table, the counter `last_ino` of `new_inode` (which all filesystems of the
host share) and the frames it has sent to its peer and the peer has not
handled yet.  Everything a call depends on besides the state (whose
credentials it runs with, whether memory and network are there) is an `Env`.
-/

namespace Wjfs

/-- The masks `inode_permission` is asked with. -/
inductive Access where
  | exec | write | writeExec
deriving DecidableEq, Repr

/-- What a call runs with: the answers of `inode_permission`, of the sticky
and append-only checks of `may_delete` (`true` lets the removal of the second
inode from the first go on), whether `new_inode` gets memory, and whether the
peer accepts the connection. -/
structure Env where
  inodePermission : Inode → Access → Bool
  mayRemove : Inode → Inode → Bool
  newInode : Bool
  connects : Bool

namespace Env

/-- The server thread: it has every capability, so `inode_permission` only
refuses to search what has no execute bit and is no directory. -/
def server (newInode : Bool) : Env where
  inodePermission i a := a == .write || i.isDir || i.iMode.perm &&& Mode.xugo != 0
  mayRemove _ _ := true
  newInode := newInode
  connects := true

end Env

/-- One host. -/
structure Host where
  /-- The dentry tree; its top node is the root dentry. -/
  dcache : Dcache
  /-- `rroot_dentry`. -/
  root : Ptr
  /-- The inodes by address; a freed inode's contents stay behind. -/
  inodes : Ptr → Inode
  /-- Every address from here on is free. -/
  nextPtr : Ptr
  /-- `last_ino` of `new_inode`. -/
  lastIno : CInt
  /-- `reg_ino_mapp_table`. -/
  table : Table
  /-- Control frames sent and not yet handled by the peer, oldest first. -/
  outbox : List Bytes
  /-- The dentries of the open files, one entry for each. -/
  files : List Ptr

namespace Host

variable (h : Host)

/-! ## state updates -/

/-- Rewrite the dentry tree. -/
def mapDcache (f : Dcache → Dcache) : Host := { h with dcache := f h.dcache }

/-- Rewrite the inode at an address. -/
def setInode (i : Ptr) (f : Inode → Inode) : Host :=
  { h with inodes := fun j => if j = i then f (h.inodes i) else h.inodes j }

/-- `dget`. -/
def dget (k : Ptr) : Host := h.mapDcache (·.dget k)

/-- `dput`. -/
def dput (k : Ptr) : Host := h.mapDcache (·.dput k)

/-- `ksend` of a control frame. -/
def send (env : Env) (frame : Bytes) : Host :=
  if env.connects then { h with outbox := h.outbox ++ [frame] } else h

/-! ## reading the state -/

/-- A dentry and the address of its parent. -/
def dentryOf? (k : Ptr) : Option (Option Ptr × Dentry) := h.dcache.node? k

/-- The address in `dentry->d_inode`; `none` if the dentry is negative or not
there. -/
def dInode? (k : Ptr) : Option Ptr := (h.dentryOf? k).bind fun x => x.2.dInode

/-- `dentry->d_inode`. -/
def inodeOf? (k : Ptr) : Option Inode := (h.dInode? k).map h.inodes

/-- `dentry->d_parent`; the root is its own parent. -/
def dParent (k : Ptr) : Ptr := ((h.dentryOf? k).bind fun x => x.1).getD k

/-- `dentry->d_name.name`. -/
def dName? (k : Ptr) : Option Bytes := (h.dentryOf? k).map fun x => x.2.dName

/-- The four fields of a dentry that every frame carries: its inode number
and name and those of its parent.  A missing inode is a `NULL` pointer. -/
def frameFields (k : Ptr) : Except Fault (CInt × Bytes × CInt × Bytes) :=
  match h.inodeOf? k, h.dName? k, h.inodeOf? (h.dParent k), h.dName? (h.dParent k) with
  | some i, some n, some ip, some np => .ok (i.iIno, n, ip.iIno, np)
  | _, _, _, _ => .error .nullDeref

/-- `is_my_file(dentry)`. -/
def isMyFile (k : Ptr) : Except Fault Bool :=
  match h.inodeOf? k with
  | none => .error .nullDeref
  | some i => .ok (h.table.isMyFile i.iIno)

/-! ## path walk and lookup -/

/-- The names `.` and `..`. -/
def dots : List Bytes := [[46], [46, 46]]

/-- `LAST_NORM`: a last path component that is a name. -/
def lastNorm (name : Bytes) : Bool :=
  name != [] && !name.contains 47 && !name.contains 0 && !dots.contains name

/-- `path_walk` from directory `p` along components that must all be
directories.  A component that is not there makes a negative dentry which the
walk drops again at once, so a failed walk leaves no trace. -/
def walk (env : Env) (p : Ptr) : List Bytes → Except Errno Ptr
  | [] =>
      match h.inodeOf? p with
      | none => .error .enoent
      | some i => if i.isDir then .ok p else .error .enotdir
  | name :: path =>
      match h.inodeOf? p with
      | none => .error .enoent
      | some i =>
          if !i.isDir then .error .enotdir
          else if !env.inodePermission i .exec then .error .eacces
          else
            match h.dcache.dLookup p name with
            | none => .error .enoent
            | some d => walk env d.ptr path

/-- `wjfs_lookup` of the dentry that `d_alloc` just made, with the `dput` of
its caller when it fails. -/
def wjfsLookup (new : Ptr) (name : Bytes) : Host × Except Errno Ptr :=
  if 255 < name.length then (h.dput new, .error .enametoolong)
  else (h.mapDcache (·.update new Dentry.added), .ok new)

/-- `__lookup_hash`: the cached dentry with one more reference, or a new
negative one.  Only directories have `i_op->lookup`. -/
def lookupHash (base : Ptr) (name : Bytes) : Except Fault (Host × Except Errno Ptr) :=
  match h.inodeOf? base with
  | none => .error .nullDeref
  | some i =>
      match h.dcache.dLookup base name with
      | some d => .ok (h.dget d.ptr, .ok d.ptr)
      | none =>
          if i.dead then .ok (h, .error .enoent)
          else if i.isDir then
            let new := h.nextPtr
            let h₁ := { h with dcache := h.dcache.dAlloc base name new, nextPtr := new + 1 }
            .ok (h₁.wjfsLookup new name)
          else .error .nullDeref

/-- `lookup_hash(nd)`. -/
def lookupNd (env : Env) (base : Ptr) (name : Bytes) :
    Except Fault (Host × Except Errno Ptr) :=
  match h.inodeOf? base with
  | none => .error .nullDeref
  | some i =>
      if env.inodePermission i .exec then h.lookupHash base name
      else .ok (h, .error .eacces)

/-- `lookup_one_len`. -/
def lookupOneLen (env : Env) (base : Ptr) (name : Bytes) :
    Except Fault (Host × Except Errno Ptr) :=
  if name = [] ∨ 47 ∈ name ∨ 0 ∈ name then .ok (h, .error .eacces)
  else h.lookupNd env base name

/-! ## making inodes and binding them -/

/-- `wjfs_get_inode`. -/
def wjfsGetInode (env : Env) (mode : Mode) : Host × Option Ptr :=
  if env.newInode then
    let i := h.nextPtr
    ({ h with
        inodes := fun j => if j = i then Inode.fresh (h.lastIno + 1) mode else h.inodes j
        nextPtr := i + 1
        lastIno := h.lastIno + 1 }, some i)
  else (h, none)

/-- `d_instantiate`: `BUG_ON` if the dentry already has an inode. -/
def dInstantiate (k i : Ptr) : Except Fault Host :=
  if (h.dInode? k).isSome then .error .bug
  else .ok (h.mapDcache (·.update k (Dentry.instantiate i)))

end Host

end Wjfs
