import Wjfs.Callbacks

/-!
# Wjfs.Remote

What the server thread does to the tree for the peer: the two tree searches
of `wjfs.c`, `rdma_create` of `wjfs_create.c` and `rdma_remove` of
`wjfs_remove.c`.
-/

namespace Wjfs

namespace Host

variable (env : Env) (h : Host)

/-! ## the tree searches -/

/-- The recursion that `find_from_all_dentry` and `find_dentry_by_ino` share:
over the children of a dentry in `d_subdirs` order, skipping negative ones
and those with mode 0; a directory's own subtree is searched before the
directory is tested, and what that search returns is tested again. -/
def findSubdirs (inodes : Ptr → Inode) (test : Dentry → Bool) : Dcache → Option Dentry
  | .nil => none
  | .cons d sub next =>
      match d.dInode with
      | none => findSubdirs inodes test next
      | some i =>
          if (inodes i).iMode.isZero then findSubdirs inodes test next
          else
            match (if (inodes i).isDir then findSubdirs inodes test sub else none).filter test with
            | some ans => some ans
            | none => if test d then some d else findSubdirs inodes test next

/-- `find_from_all_dentry(dentry, name_parent)`. -/
def findFromAllDentry (dentry : Ptr) (nameParent : Bytes) : Option Dentry :=
  findSubdirs h.inodes (fun d => d.dName == nameParent) (h.dcache.subdirs dentry)

/-- `find_dentry_by_ino(dentry, ino)`. -/
def findDentryByIno (dentry : Ptr) (ino : CInt) : Option Dentry :=
  findSubdirs h.inodes (fun d => d.dInode.any fun i => (h.inodes i).iIno == ino)
    (h.dcache.subdirs dentry)

/-! ## creating a link -/

/-- `wjfs_mknod_rdma`.  Unlike `wjfs_mknod` it sends no frame. -/
def wjfsMknodRdma (dir dentry : Ptr) (mode : Mode) : Outcome :=
  match h.wjfsGetInode env mode with
  | (h, none) => .ok (h, some .enospc)
  | (h, some i) => do
      let h ← (h.inheritSgid dir i mode).dInstantiate dentry i
      .ok (h.dget dentry, none)

/-- `wjfs_create_by_name`: the dentry and the error.  `IS_ERR` is asked of
the address of the local variable, so an error pointer is followed. -/
def wjfsCreateByName (name : Bytes) (mode : Mode) (parent : Ptr) :
    Except Fault (Host × Ptr × Option Errno) := do
  match ← h.lookupOneLen env parent name with
  | (_, .error _) => .error .errPtr
  | (h, .ok dentry) =>
      match h.dInode? parent with
      | none => .error .nullDeref
      | some dir => do
          let (h, error) ← h.wjfsMknodRdma env dir dentry mode
          .ok (h, dentry, error)

/-- `wjfs_create_file` and `wjfs_create_dir`: the new dentry, `NULL` after an
error. -/
def wjfsCreateFile (name : Bytes) (mode : Mode) (parent : Ptr) :
    Except Fault (Host × Option Ptr) := do
  let (h, dentry, error) ← h.wjfsCreateByName env name mode parent
  .ok (h, if error = none then some dentry else none)

/-- The mode a link is made with: `S_IFDIR | S_IRWXU | S_IRUGO | S_IXUGO`, or
`S_IFREG | S_IRUGO`. -/
def linkMode (mode : CInt) : Mode := if mode ≠ 0 then ⟨.dir, 0o755⟩ else ⟨.reg, 0o444⟩

/-- The parent that `rdma_create` looks for: the root by its own name, any
other directory by the tree search. -/
def resolveParent (nameParent : Bytes) : Option Ptr :=
  if h.dName? h.root = some nameParent then some h.root
  else (h.findFromAllDentry h.root nameParent).map Dentry.ptr

/-- The stores into the table after the link was made. -/
def recordLink (new parent : Ptr) (c : Control) (ip : Bytes) : Except Fault Host :=
  match h.dName? new, h.inodeOf? new, h.inodeOf? parent with
  | some name, some i, some p => do
      let table ← h.table.insert
        fun e => e.fill name i.iIno c.ino p.iIno c.inoParent ip
      .ok { h with table := table }
  | _, _, _ => .error .nullDeref

/-- `rdma_create` after the parsing. -/
def rdmaCreateParsed (c : Control) (ip : Bytes) : Except Fault Host :=
  match h.resolveParent c.nameParent with
  | none => .error .nullDeref
  | some parent =>
      -- `tmp_dentry->d_inode->i_ino` is printed
      if (h.dInode? parent).isNone then .error .nullDeref
      else do
        match ← h.wjfsCreateFile env c.name (linkMode c.mode) parent with
        | (_, none) => .error .nullDeref
        | (h, some new) =>
            (h.mapDcache (·.update new Dentry.dec)).recordLink new parent c ip

/-- `rdma_create`. -/
def rdmaCreate (buf ip : Bytes) : Except Fault Host := do
  h.rdmaCreateParsed env (← parseControl buf) ip

/-! ## removing a link -/

/-- `wjfs_rmdir_rdma`; its caller ignores the error it returns. -/
def wjfsRmdirRdma (dir dentry i : Ptr) : Host :=
  if !h.dcache.simpleEmpty dentry then h
  else ((h.setInode i Inode.dropNlink).simpleUnlink dentry i).setInode dir Inode.dropNlink

/-- `wjfs_unlink_rdma`. -/
def wjfsUnlinkRdma (dentry i : Ptr) : Host := (h.setInode i Inode.dropNlink).dput dentry

/-- `rdma_remove` after the parsing.  Only the two numbers and the mode
count. -/
def rdmaRemoveParsed (c : Control) : Except Fault Host :=
  let myIno := h.table.myIno c.ino c.inoParent
  let h := { h with table := h.table.release c.ino c.inoParent }
  match h.findDentryByIno h.root myIno with
  | none => .ok h
  | some d =>
      match d.dInode, h.dInode? (h.dParent d.ptr) with
      | some i, some dir =>
          .ok (if c.mode ≠ 0 then h.wjfsRmdirRdma dir d.ptr i else h.wjfsUnlinkRdma d.ptr i)
      | _, _ => .error .nullDeref

/-- `wjfs_rmdir_rdma` ends with `drop_nlink(dir)`, after the `dput`.  If that has
killed the last dentry of the directory, the inode was freed with it. -/
def rmdirFreesDir (dir dentry : Ptr) : Bool :=
  h.dcache.simpleEmpty dentry && (h.dcache.dput dentry).nodes.all fun x => x.2.dInode != some dir

/-- `rdma_remove` after the parsing uses an inode that it has freed.  Nothing but
`i_nlink` of that inode is written, so what `rdmaRemoveParsed` gives is what a
host goes on with that gets away with it. -/
def removeUsesFreed (c : Control) : Bool :=
  c.mode != 0 && (h.findDentryByIno h.root (h.table.myIno c.ino c.inoParent)).any fun d =>
    (h.dInode? (h.dParent d.ptr)).any fun dir => h.rmdirFreesDir dir d.ptr

/-- `rdma_remove`. -/
def rdmaRemove (buf : Bytes) : Except Fault Host := do
  h.rdmaRemoveParsed (← parseControl buf)

/-! ## requests sent through a link -/

/-- The read request that `wjfs_client_read` builds for a dentry. -/
def wjfsClientRead (dentry : Ptr) : Except Fault Bytes := do
  let (ino, name, inoParent, nameParent) ← h.frameFields dentry
  let (rdmaIno, rdmaParentIno) := h.table.remote ino inoParent
  .ok (readRequest rdmaIno name rdmaParentIno nameParent)

/-- The write request that `wjfs_client_write` builds for a dentry. -/
def wjfsClientWrite (dentry : Ptr) (message : Bytes) : Except Fault Bytes := do
  let (ino, name, inoParent, nameParent) ← h.frameFields dentry
  let (rdmaIno, rdmaParentIno) := h.table.remote ino inoParent
  .ok (writeRequest rdmaIno name rdmaParentIno nameParent message)

/-! ## mounting -/

/-- The name of the root dentry, `"/"`. -/
def rootName : Bytes := [47]

/-- The root dentry that `d_alloc_root` makes, with the references of the
superblock and of the mount. -/
def rootDentry (ptr i : Ptr) : Dentry where
  ptr := ptr
  dName := rootName
  dInode := some i
  dCount := 2
  dUnhashed := true
  dOp := false
  dMounted := false

/-- A host right after `mount`: the superblock and the mount each hold one
reference to the root, and `wjfs_fill_super` has cleared the table.  The
counter `last_ino`, the free addresses and what the table held before are
whatever the host's earlier work left. -/
def mounted (lastIno : CInt) (perm : BitVec 12) (nextPtr : Ptr) (table : Table) : Host where
  dcache := .cons (rootDentry nextPtr (nextPtr + 1)) .nil .nil
  root := nextPtr
  inodes := fun _ => Inode.fresh (lastIno + 1) ⟨.dir, perm⟩
  nextPtr := nextPtr + 2
  lastIno := lastIno + 1
  table := table.clear
  outbox := []
  files := []

end Host

end Wjfs
