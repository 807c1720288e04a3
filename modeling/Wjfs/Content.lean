import Wjfs.Remote

/-!
# Wjfs.Content

Reading and writing file contents for the peer: `get_file_message` and
`rdma_read` of `wjfs_read.c`, `put_file_message` and `rdma_write` of
`wjfs_write.c`.

`rdma_read` and `get_file_message` work in two stack arrays of 1024 bytes
that nothing initialises.  What lies in them is an input of the model, and
running past their end is `Fault.outOfBounds`.
-/

namespace Wjfs

/-- The two uninitialised stack arrays of a read: `message[1024]` of
`rdma_read` and `buf[1024]` of `get_file_message`. -/
structure Stale where
  message : Nat → UInt8
  buf : Nat → UInt8

/-- Size of the stack arrays. -/
def bufSize : Nat := 1024

/-- `PAGE_CACHE_SIZE`. -/
def pageSize : Nat := 4096

/-- The C string at the start of a 1024-byte array; without a NUL in it the
string functions run past its end. -/
def cString (a : Nat → UInt8) : Except Fault Bytes :=
  if 0 ∈ (List.range bufSize).map a then
    .ok (((List.range bufSize).map a).takeWhile (· ≠ 0))
  else .error .outOfBounds

/-- How many bytes of the first page `get_file_message` copies. -/
def copyLength (isize : Nat) : Nat := if isize ≤ pageSize then isize else pageSize

/-- `get_file_message`, as the C string it leaves in `message`.  An empty
file leaves `message` alone. -/
def getFileMessage (stale : Stale) (i : Inode) : Except Fault Bytes :=
  if i.iSize = 0 then cString stale.message
  else
    match i.pages 0 with
    | none => .error .nullDeref
    | some page =>
        if bufSize < copyLength i.iSize then .error .outOfBounds
        else cString fun k => if k < copyLength i.iSize then page k else stale.buf k

/-- `put_file_message`: the message is written over the start of the first
page, which is zero if it was not there yet. -/
def putFileMessage (message : Bytes) (i : Inode) : Inode :=
  let old : Page := (i.pages 0).getD fun _ => 0
  let new : Page := fun k => (message[k]?).getD (old k)
  { i with
    iSize := max i.iSize message.length
    pages := fun n => if n = 0 then some new else i.pages n }

namespace Host

variable (h : Host)

/-- `rdma_read`: what it leaves in `buf`. -/
def rdmaRead (stale : Stale) (buf : Bytes) : Except Fault Bytes := do
  let req ← parseRead buf
  match h.findDentryByIno h.root req.ino with
  | none => .ok buf
  | some d =>
      match d.dInode with
      | none => .error .nullDeref
      | some i => getFileMessage stale (h.inodes i)

/-- `rdma_write`. -/
def rdmaWrite (buf : Bytes) : Except Fault Host := do
  let req ← parseWrite buf
  match h.findDentryByIno h.root req.ino with
  | none => .ok h
  | some d =>
      match d.dInode with
      | none => .error .nullDeref
      | some i => .ok (h.setInode i (putFileMessage req.message))

end Host

end Wjfs
