import Wjfs.Host

/-!
# Wjfs.Callbacks

The inode operations of `wjfs.c` that the VFS calls: `wjfs_mknod`,
`wjfs_mkdir`, `wjfs_create`, `wjfs_rename`, `wjfs_symlink`, `wjfs_link`,
`wjfs_unlink` and `wjfs_rmdir`.

Each takes the address of the directory's inode and of the dentry, returns
the new state and the error number (`none` for 0), and is a `Fault` where the
C follows a pointer it may not follow.  Times and owners are not modelled.
-/

namespace Wjfs

/-- What a call that can fail leaves behind: a state and an error number. -/
abbrev Outcome := Except Fault (Host × Option Errno)

namespace Host

variable (env : Env) (h : Host)

/-- A directory made in a set-group-id directory inherits the bit. -/
def inheritSgid (dir i : Ptr) (mode : Mode) : Host :=
  if (h.inodes dir).iMode.perm &&& Mode.sgid ≠ 0 ∧ mode.isDir then
    h.setInode i fun n => { n with iMode := { n.iMode with perm := n.iMode.perm ||| Mode.sgid } }
  else h

/-- `wjfs_mknod`.  The frame is built from `inode->i_ino` even when there is
no inode. -/
def wjfsMknod (dir dentry : Ptr) (mode : Mode) : Outcome :=
  match h.wjfsGetInode env mode with
  | (_, none) => .error .nullDeref
  | (h, some i) => do
      let h ← (h.inheritSgid dir i mode).dInstantiate dentry i
      let h := h.dget dentry
      let (ino, name, inoParent, nameParent) ← h.frameFields dentry
      .ok (h.send env (wjfsClientCreate ino name inoParent nameParent mode.isDir), none)

/-- `wjfs_mkdir`. -/
def wjfsMkdir (dir dentry : Ptr) (perm : BitVec 12) : Outcome := do
  let (h, retval) ← h.wjfsMknod env dir dentry ⟨.dir, perm⟩
  if retval = none then .ok (h.setInode dir Inode.incNlink, none) else .ok (h, retval)

/-- `wjfs_create`. -/
def wjfsCreate (dir dentry : Ptr) (perm : BitVec 12) : Outcome :=
  h.wjfsMknod env dir dentry ⟨.reg, perm⟩

/-- `simple_unlink`, for a dentry with inode `i`. -/
def simpleUnlink (dentry i : Ptr) : Host := (h.setInode i Inode.dropNlink).dput dentry

/-- `wjfs_rename`. -/
def wjfsRename (oldDir oldDentry newDir newDentry : Ptr) : Outcome :=
  match h.inodeOf? oldDentry with
  | none => .error .nullDeref
  | some inode =>
      if !h.dcache.simpleEmpty newDentry then .ok (h, some .enotempty)
      else
        match h.dInode? newDentry with
        | some target =>
            let h := h.simpleUnlink newDentry target
            .ok (if inode.isDir then h.setInode oldDir Inode.dropNlink else h, none)
        | none =>
            .ok (if inode.isDir then
                (h.setInode oldDir Inode.dropNlink).setInode newDir Inode.incNlink
              else h, none)

/-- `wjfs_symlink` makes nothing and reports success. -/
def wjfsSymlink (_dir _dentry : Ptr) : Outcome := .ok (h, none)

/-- `wjfs_link`. -/
def wjfsLink (oldDentry dentry : Ptr) : Outcome :=
  match h.dInode? oldDentry with
  | none => .error .nullDeref
  | some i => do
      let h ← ((h.setInode i Inode.incNlink).dget dentry).dInstantiate dentry i
      .ok (h, none)

/-- `wjfs_unlink`.  Returns 0 also when it refuses. -/
def wjfsUnlink (_dir dentry : Ptr) : Outcome := do
  if ← h.isMyFile dentry then
    match h.dInode? dentry with
    | none => .error .nullDeref
    | some i =>
        let h := (h.setInode i Inode.dropNlink).dput dentry
        let (ino, name, inoParent, nameParent) ← h.frameFields dentry
        .ok (h.send env (wjfsClientRemove ino name inoParent nameParent false), none)
  else .ok (h, none)

/-- `wjfs_rmdir`.  Returns 0 also when it refuses. -/
def wjfsRmdir (dir dentry : Ptr) : Outcome := do
  if ← h.isMyFile dentry then
    if !h.dcache.simpleEmpty dentry then .ok (h, some .enotempty)
    else
      match h.dInode? dentry with
      | none => .error .nullDeref
      | some i =>
          let h := (h.setInode i Inode.dropNlink).simpleUnlink dentry i
          let h := h.setInode dir Inode.dropNlink
          let (ino, name, inoParent, nameParent) ← h.frameFields dentry
          .ok (h.send env (wjfsClientRemove ino name inoParent nameParent true), none)
  else .ok (h, none)

end Host

end Wjfs
