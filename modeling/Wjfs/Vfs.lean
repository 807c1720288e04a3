import Wjfs.Callbacks

/-!
# Wjfs.Vfs

The system calls of `fs/namei.c` around the callbacks.

A path is given as the list of its components, `.` and `..` resolved, split
into the directory and the last name.  `withParent` is what all calls share:
the walk to the directory, with a reference to it held during the call and
released by `path_put`.  Locks, security hooks and write access to the mount
are not modelled; a permission is refused by the `Env`.
-/

namespace Wjfs

namespace Host

variable (env : Env) (h : Host)

/-! ## checks -/

/-- `may_create`, for a dentry known to be negative or not. -/
def mayCreate (dir child : Ptr) : Option Errno :=
  if (h.dInode? child).isSome then some .eexist
  else if (h.inodes dir).dead then some .enoent
  else if !env.inodePermission (h.inodes dir) .writeExec then some .eacces
  else none

/-- `may_delete`. -/
def mayDelete (dir victim : Ptr) (isdir : Bool) : Option Errno :=
  match h.inodeOf? victim with
  | none => some .enoent
  | some i =>
      if !env.inodePermission (h.inodes dir) .writeExec then some .eacces
      else if !env.mayRemove (h.inodes dir) i then some .eperm
      else if isdir && !i.isDir then some .enotdir
      else if isdir && h.dParent victim == victim then some .ebusy
      else if !isdir && i.isDir then some .eisdir
      else if (h.inodes dir).dead then some .enoent
      else none

/-! ## the parts of a call -/

/-- Walk to the directory, hold it, run the rest, `path_put`. -/
def withParent (path : List Bytes) (call : Host → Ptr → Outcome) : Outcome :=
  match h.walk env h.root path with
  | .error e => .ok (h, some e)
  | .ok dir => do
      let (h, error) ← call (h.dget dir) dir
      .ok (h.dput dir, error)

/-- Look the last component up, run the rest on the dentry, `dput` it. -/
def withDentry (dir : Ptr) (name : Bytes) (call : Host → Ptr → Outcome) : Outcome := do
  match ← h.lookupNd env dir name with
  | (h, .error e) => .ok (h, some e)
  | (h, .ok dentry) => do
      let (h, error) ← call h dentry
      .ok (h.dput dentry, error)

/-- Run a callback with the inode of a directory; the walk made sure that
there is one. -/
def withInode (dir : Ptr) (call : Ptr → Outcome) : Outcome :=
  match h.dInode? dir with
  | none => .error .nullDeref
  | some i => call i

/-- What the calls on a name share: the walk, the lookup of the last
component, and the rest with the directory's inode and the dentry.  `notNorm`
is the error for a last component that is not a name. -/
def withName (path : List Bytes) (name : Bytes) (notNorm : Errno)
    (call : Host → Ptr → Ptr → Outcome) : Outcome :=
  h.withParent env path fun h dir =>
    if lastNorm name then
      h.withDentry env dir name fun h dentry => h.withInode dir fun i => call h i dentry
    else .ok (h, some notNorm)

/-- As `withName`, with the `lookup_create` of the calls that make a name: it
insists on a negative dentry. -/
def withNewName (path : List Bytes) (name : Bytes) (call : Host → Ptr → Ptr → Outcome) :
    Outcome :=
  h.withName env path name .eexist fun h dir dentry =>
    if (h.dInode? dentry).isSome then .ok (h, some .eexist) else call h dir dentry

/-! ## making names -/

/-- The special files that `mknod` may make, by a caller with `CAP_MKNOD`. -/
inductive Special where
  | fifo | sock | chr | blk
deriving DecidableEq, Repr

/-- The type bits of a special file. -/
def Special.fmt : Special → Fmt
  | .fifo => .fifo
  | .sock => .sock
  | .chr => .chr
  | .blk => .blk

/-- `vfs_create`. -/
def vfsCreate (dir dentry : Ptr) (perm : BitVec 12) : Outcome :=
  match h.mayCreate env dir dentry with
  | some e => .ok (h, some e)
  | none => h.wjfsCreate env dir dentry perm

/-- `vfs_mknod`. -/
def vfsMknod (dir dentry : Ptr) (special : Special) (perm : BitVec 12) : Outcome :=
  match h.mayCreate env dir dentry with
  | some e => .ok (h, some e)
  | none => h.wjfsMknod env dir dentry ⟨special.fmt, perm⟩

/-- `vfs_mkdir`. -/
def vfsMkdir (dir dentry : Ptr) (perm : BitVec 12) : Outcome :=
  match h.mayCreate env dir dentry with
  | some e => .ok (h, some e)
  | none => h.wjfsMkdir env dir dentry (perm &&& 0o1777)

/-- `mknodat` of a regular file, which is what `creat` comes to. -/
def sysCreate (path : List Bytes) (name : Bytes) (perm : BitVec 12) : Outcome :=
  h.withNewName env path name fun h dir dentry => h.vfsCreate env dir dentry perm

/-- `mknodat` of a special file. -/
def sysMknod (path : List Bytes) (name : Bytes) (special : Special) (perm : BitVec 12) :
    Outcome :=
  h.withNewName env path name fun h dir dentry => h.vfsMknod env dir dentry special perm

/-- `mkdirat`. -/
def sysMkdir (path : List Bytes) (name : Bytes) (perm : BitVec 12) : Outcome :=
  h.withNewName env path name fun h dir dentry => h.vfsMkdir env dir dentry perm

/-- `vfs_symlink`. -/
def vfsSymlink (dir dentry : Ptr) : Outcome :=
  match h.mayCreate env dir dentry with
  | some e => .ok (h, some e)
  | none => h.wjfsSymlink dir dentry

/-- `symlinkat`. -/
def sysSymlink (path : List Bytes) (name : Bytes) : Outcome :=
  h.withNewName env path name fun h dir dentry => h.vfsSymlink env dir dentry

/-- A lookup alone, as `stat` does it. -/
def sysLookup (path : List Bytes) (name : Bytes) : Outcome :=
  h.withName env path name .enoent fun h _ dentry =>
    .ok (h, if (h.dInode? dentry).isSome then none else some .enoent)

/-- `vfs_link`. -/
def vfsLink (oldDentry dir newDentry : Ptr) : Outcome :=
  match h.inodeOf? oldDentry with
  | none => .ok (h, some .enoent)
  | some i =>
      match h.mayCreate env dir newDentry with
      | some e => .ok (h, some e)
      | none => if i.isDir then .ok (h, some .eperm) else h.wjfsLink oldDentry newDentry

/-- `linkat`.  The old path is looked up first and held during the call. -/
def sysLink (oldPath : List Bytes) (oldName : Bytes) (path : List Bytes) (name : Bytes) :
    Outcome :=
  h.withParent env oldPath fun h oldDir =>
    h.withDentry env oldDir oldName fun h oldDentry =>
      if (h.dInode? oldDentry).isNone then .ok (h, some .enoent)
      else
        h.withNewName env path name fun h dir dentry => h.vfsLink env oldDentry dir dentry

/-! ## removing names -/

/-- `vfs_unlink`. -/
def vfsUnlink (dir dentry : Ptr) : Outcome :=
  match h.mayDelete env dir dentry false with
  | some e => .ok (h, some e)
  | none => do
      if (h.dentryOf? dentry).any (·.2.dMounted) then .ok (h, some .ebusy)
      else
        match ← h.wjfsUnlink env dir dentry with
        | (h, some e) => .ok (h, some e)
        | (h, none) => .ok (h.mapDcache (·.dDelete dentry), none)

/-- `unlinkat`. -/
def sysUnlink (path : List Bytes) (name : Bytes) : Outcome :=
  h.withName env path name .eisdir fun h dir dentry => h.vfsUnlink env dir dentry

/-- The part of `vfs_rmdir` between `dentry_unhash` and its `dput`. -/
def rmdirUnhashed (dir dentry : Ptr) : Outcome := do
  if (h.dentryOf? dentry).any (·.2.dMounted) then .ok (h, some .ebusy)
  else
    match ← h.wjfsRmdir env dir dentry with
    | (h, some e) => .ok (h, some e)
    | (h, none) =>
        h.withInode dentry fun i =>
          .ok ((h.setInode i Inode.setDead).mapDcache (·.dDelete dentry), none)

/-- `vfs_rmdir`. -/
def vfsRmdir (dir dentry : Ptr) : Outcome :=
  match h.mayDelete env dir dentry true with
  | some e => .ok (h, some e)
  | none => do
      let (h, error) ← (h.mapDcache (·.dentryUnhash dentry)).rmdirUnhashed env dir dentry
      .ok (h.dput dentry, error)

/-- The errors of `do_rmdir` for `.`, for `..` and for a path of slashes only. -/
def rmdirNotNorm (name : Bytes) : Errno :=
  if name = [46] then .einval else if name = [46, 46] then .enotempty else .ebusy

/-- `rmdir`. -/
def sysRmdir (path : List Bytes) (name : Bytes) : Outcome :=
  h.withName env path name (rmdirNotNorm name) fun h dir dentry => h.vfsRmdir env dir dentry

/-! ## renaming -/

/-- Is either dentry a mount point? -/
def eitherMounted (oldDentry newDentry : Ptr) : Bool :=
  (h.dentryOf? oldDentry).any (·.2.dMounted) || (h.dentryOf? newDentry).any (·.2.dMounted)

/-- The callback with the mount point test in front of it. -/
def renameUnmounted (oldDir oldDentry newDir newDentry : Ptr) : Outcome :=
  if h.eitherMounted oldDentry newDentry then .ok (h, some .ebusy)
  else h.wjfsRename oldDir oldDentry newDir newDentry

/-- `d_move` after a rename that went well. -/
def moveOnSuccess (error : Option Errno) (oldDentry newDentry : Ptr) : Host :=
  if error = none then h.mapDcache (·.dMove oldDentry newDentry) else h

/-- `vfs_rename_dir`. -/
def vfsRenameDir (oldDir oldDentry newDir newDentry : Ptr) : Outcome :=
  match h.inodeOf? oldDentry with
  | none => .error .nullDeref
  | some inode =>
      if newDir ≠ oldDir ∧ !env.inodePermission inode .write then .ok (h, some .eacces)
      else
        match h.dInode? newDentry with
        | none => do
            let (h, error) ← h.renameUnmounted oldDir oldDentry newDir newDentry
            .ok (h.moveOnSuccess error oldDentry newDentry, error)
        | some target => do
            let (h, error) ← (h.mapDcache (·.dentryUnhash newDentry)).renameUnmounted
              oldDir oldDentry newDir newDentry
            let h := if error = none then h.setInode target Inode.setDead else h
            -- `d_rehash` of a target that `dentry_unhash` dropped
            let h := (h.mapDcache (·.update newDentry Dentry.rehash)).dput newDentry
            .ok (h.moveOnSuccess error oldDentry newDentry, error)

/-- `vfs_rename_other`. -/
def vfsRenameOther (oldDir oldDentry newDir newDentry : Ptr) : Outcome := do
  let (h, error) ← (h.dget newDentry).renameUnmounted oldDir oldDentry newDir newDentry
  .ok ((h.moveOnSuccess error oldDentry newDentry).dput newDentry, error)

/-- `vfs_rename`. -/
def vfsRename (oldDir oldDentry newDir newDentry : Ptr) : Outcome :=
  match h.inodeOf? oldDentry with
  | none => .error .nullDeref
  | some inode =>
      if h.dInode? oldDentry = h.dInode? newDentry then .ok (h, none)
      else
        match h.mayDelete env oldDir oldDentry inode.isDir with
        | some e => .ok (h, some e)
        | none =>
            match (if (h.dInode? newDentry).isNone then h.mayCreate env newDir newDentry
              else h.mayDelete env newDir newDentry inode.isDir) with
            | some e => .ok (h, some e)
            | none =>
                if inode.isDir then h.vfsRenameDir env oldDir oldDentry newDir newDentry
                else h.vfsRenameOther oldDir oldDentry newDir newDentry

/-- `lock_rename(new_dir, old_dir)`: the dentry that neither name may be. -/
def lockRename (p1 p2 : Ptr) : Option Ptr :=
  if p1 = p2 then none else (h.dcache.dAncestor p2 p1).orElse fun _ => h.dcache.dAncestor p1 p2

/-- `renameat`. -/
def sysRename (oldPath : List Bytes) (oldName : Bytes) (newPath : List Bytes) (newName : Bytes) :
    Outcome :=
  h.withParent env oldPath fun h oldDir =>
    h.withParent env newPath fun h newDir =>
      if !(lastNorm oldName && lastNorm newName) then .ok (h, some .ebusy)
      else
        let trap := h.lockRename newDir oldDir
        h.withDentry env oldDir oldName fun h oldDentry =>
          if (h.dInode? oldDentry).isNone then .ok (h, some .enoent)
          else if some oldDentry = trap then .ok (h, some .einval)
          else
            h.withDentry env newDir newName fun h newDentry =>
              if some newDentry = trap then .ok (h, some .enotempty)
              else
                h.withInode oldDir fun i => h.withInode newDir fun j =>
                  h.vfsRename env i oldDentry j newDentry

/-! ## holding a file open -/

/-- `open` of an existing file: the file keeps the reference of the lookup. -/
def sysOpen (path : List Bytes) (name : Bytes) : Outcome :=
  h.withParent env path fun h dir => do
    match ← h.lookupNd env dir name with
    | (h, .error e) => .ok (h, some e)
    | (h, .ok dentry) =>
        if (h.dInode? dentry).isSome then
          .ok ({ h with files := dentry :: h.files }, none)
        else .ok (h.dput dentry, some .enoent)

/-- `close` of one of the files open on a dentry. -/
def sysClose (dentry : Ptr) : Host :=
  if dentry ∈ h.files then { h with files := h.files.erase dentry }.dput dentry else h

end Host

end Wjfs
