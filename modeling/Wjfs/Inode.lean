import Mathlib.Data.BitVec
import Wjfs.Basic

/-!
# Wjfs.Inode

In-memory inodes: the fields of `struct inode` that the modelled code reads
or writes, and the link-count primitives of `linux/fs.h`.
-/

namespace Wjfs

/-- `i_mode & S_IFMT`. -/
inductive Fmt where
  | zero | fifo | chr | dir | blk | reg | lnk | sock
deriving DecidableEq, Repr

/-- `i_mode`: the file type and the twelve permission bits. -/
structure Mode where
  fmt : Fmt
  perm : BitVec 12
deriving DecidableEq, Repr

namespace Mode

/-- `S_ISDIR`. -/
def isDir (m : Mode) : Bool := m.fmt = .dir

/-- `i_mode == 0`. -/
def isZero (m : Mode) : Bool := m.fmt = .zero && m.perm = 0

/-- `S_ISGID`. -/
def sgid : BitVec 12 := 0o2000

/-- `S_IXUGO`. -/
def xugo : BitVec 12 := 0o111

end Mode

/-- The bytes of one page of the page cache. -/
abbrev Page := Nat → UInt8

/-- `struct inode`.  `dead` is the flag `S_DEAD`; `pages` is the page cache
of the file, `none` for a page that was never filled. -/
structure Inode where
  iIno : CInt
  iMode : Mode
  iNlink : BitVec 32
  iSize : Nat
  pages : Nat → Option Page
  dead : Bool

namespace Inode

/-- `S_ISDIR(inode->i_mode)`. -/
def isDir (i : Inode) : Bool := i.iMode.isDir

/-- `inc_nlink`. -/
def incNlink (i : Inode) : Inode := { i with iNlink := i.iNlink + 1 }

/-- `drop_nlink`. -/
def dropNlink (i : Inode) : Inode := { i with iNlink := i.iNlink - 1 }

/-- `inode->i_flags |= S_DEAD`. -/
def setDead (i : Inode) : Inode := { i with dead := true }

section Fields

variable (i : Inode)

@[simp] theorem iIno_incNlink : i.incNlink.iIno = i.iIno := rfl
@[simp] theorem iIno_dropNlink : i.dropNlink.iIno = i.iIno := rfl
@[simp] theorem iIno_setDead : i.setDead.iIno = i.iIno := rfl
@[simp] theorem iMode_incNlink : i.incNlink.iMode = i.iMode := rfl
@[simp] theorem iMode_dropNlink : i.dropNlink.iMode = i.iMode := rfl
@[simp] theorem iMode_setDead : i.setDead.iMode = i.iMode := rfl

end Fields

/-- Two inodes that differ at most in their link count and contents. -/
def SameKind (n m : Inode) : Prop := n.iMode = m.iMode ∧ n.dead = m.dead ∧ n.iIno = m.iIno

theorem SameKind.isDir {n m : Inode} (h : n.SameKind m) : n.isDir = m.isDir := by
  unfold Inode.isDir
  rw [h.1]

theorem SameKind.trans {n m l : Inode} (h : n.SameKind m) (h' : m.SameKind l) : n.SameKind l :=
  ⟨h.1.trans h'.1, h.2.1.trans h'.2.1, h.2.2.trans h'.2.2⟩

/-- What `wjfs_get_inode` makes of the inode that `new_inode` returned: link
count 1, or 2 for a directory, and no contents. -/
def fresh (ino : CInt) (mode : Mode) : Inode where
  iIno := ino
  iMode := mode
  iNlink := if mode.isDir then 2 else 1
  iSize := 0
  pages := fun _ => none
  dead := false

end Inode

end Wjfs
