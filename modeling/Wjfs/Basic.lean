/-!
# Wjfs.Basic

Vocabulary shared by the whole model: byte strings, kernel addresses, error
numbers, and the ways in which the modelled code can leave the C it is
written in.
-/

namespace Wjfs

/-- A C string without its terminating NUL. -/
abbrev Bytes := List UInt8

/-- A kernel address (of a dentry or of an inode). -/
abbrev Ptr := Nat

/-- C `int`.  The module is built for i386, where `unsigned long` has the
same 32 bits, so `int == unsigned long` is equality of the bits. -/
abbrev CInt := BitVec 32

/-- The ways a modelled function can fail to behave at all. -/
inductive Fault where
  /-- A `NULL` pointer (or a `NULL` function pointer) is followed. -/
  | nullDeref
  /-- A pointer made by `ERR_PTR` is followed. -/
  | errPtr
  /-- A `BUG()` or `BUG_ON` is reached. -/
  | bug
  /-- An array is read or written past its end. -/
  | outOfBounds
  /-- Memory that was never written is read. -/
  | uninitialised
  /-- Memory that was freed is used. -/
  | freed
deriving DecidableEq, Repr

/-- The error numbers the modelled paths return. -/
inductive Errno where
  | eperm | enoent | eacces | eexist | enotdir | eisdir | einval | ebusy
  | enametoolong | enotempty | enospc | exdev
deriving DecidableEq, Repr

end Wjfs
