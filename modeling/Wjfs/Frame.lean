import Mathlib.Data.BitVec
import Wjfs.Basic
import Wjfs.Numeral

/-!
# Wjfs.Frame

The wire format: the request strings built with `sprintf` on one host and
taken apart by the scanning loops of `rdma_create`, `rdma_remove`,
`rdma_read` and `rdma_write` on the other.

The scanning loops share one index between an outer `for` and an inner
`while`, so they are translated as one recursion over the bytes that are
left.  A byte stored outside `tmp_name[rows][20]` is `Fault.outOfBounds`; a
row that is read although no byte was stored in it is `Fault.uninitialised`.
-/

namespace Wjfs

/-! ## printing -/

/-- The decimal digits of `n` as characters. -/
def decimal (n : Nat) : Bytes := (Numeral.render 10 n).map fun d => UInt8.ofNat (48 + d)

/-- `sprintf` of an `int` with `%d`. -/
def fmtInt (i : CInt) : Bytes :=
  if i.msb then 45 :: decimal (2 ^ 32 - i.toNat) else decimal i.toNat

/-- `sprintf` of the given conversions with one blank between them. -/
def sprintfBlank : List Bytes → Bytes
  | [] => []
  | [s] => s
  | s :: ss => s ++ 32 :: sprintfBlank ss

/-- `"CR"` -/
def tagCR : Bytes := [67, 82]

/-- `"RM"` -/
def tagRM : Bytes := [82, 77]

/-- `"RD"` -/
def tagRD : Bytes := [82, 68]

/-- `"WR"` -/
def tagWR : Bytes := [87, 82]

/-- The last conversion of a control frame: `"1111"` for a directory,
`"0000"` otherwise. -/
def modeFlag (mode : Bool) : Bytes := if mode then [49, 49, 49, 49] else [48, 48, 48, 48]

/-- The string `wjfs_client_create` sends.  It fits `buf[1024]`, as a
directory entry's name has at most `NAME_MAX` bytes. -/
def wjfsClientCreate (ino : CInt) (name : Bytes) (inoParent : CInt) (nameParent : Bytes)
    (mode : Bool) : Bytes :=
  sprintfBlank [tagCR, fmtInt ino, name, fmtInt inoParent, nameParent, modeFlag mode]

/-- The string `wjfs_client_remove` sends. -/
def wjfsClientRemove (ino : CInt) (name : Bytes) (inoParent : CInt) (nameParent : Bytes)
    (mode : Bool) : Bytes :=
  sprintfBlank [tagRM, fmtInt ino, name, fmtInt inoParent, nameParent, modeFlag mode]

/-- The string `wjfs_client_read` sends, once the table has given the remote
numbers. -/
def readRequest (rdmaIno : CInt) (name : Bytes) (rdmaParentIno : CInt) (nameParent : Bytes) :
    Bytes :=
  sprintfBlank [tagRD, fmtInt rdmaIno, name, fmtInt rdmaParentIno, nameParent]

/-- The string `wjfs_client_write` sends, once the table has given the remote
numbers. -/
def writeRequest (rdmaIno : CInt) (name : Bytes) (rdmaParentIno : CInt) (nameParent : Bytes)
    (message : Bytes) : Bytes :=
  sprintfBlank [tagWR, fmtInt rdmaIno, name, fmtInt rdmaParentIno, nameParent, message]

/-! ## parsing -/

/-- `string2int`: plain `char` is signed and the sum wraps. -/
def string2int (buf : Bytes) : CInt :=
  buf.foldl (fun ans c => ans * 10 + (c.toBitVec.signExtend 32 - 48)) 0

/-- The separators of the scanning loops: blank, carriage return, line
feed. -/
def isSep (c : UInt8) : Bool := c == 32 || c == 13 || c == 10

/-- `tmp_name[j][k++] = c`, where the rows before `j` are `done` and row `j`
holds `row` so far. -/
def storeByte (rows : Nat) (done : List Bytes) (row : Bytes) (c : UInt8) : Except Fault Bytes :=
  if done.length < rows ∧ row.length < 20 then .ok (row ++ [c]) else .error .outOfBounds

/-- `tmp_name[j][k] = '\0'; j++`. -/
def closeRow (rows : Nat) (done : List Bytes) (row : Bytes) : Except Fault (List Bytes) :=
  if done.length < rows ∧ row.length < 20 then .ok (done ++ [row]) else .error .outOfBounds

/-- The nested scanning loops.  `none` is the test of the outer `for`,
`some row` the inner `while` with `row` already stored in row `j`. -/
def scanRows (rows : Nat) : Option Bytes → List Bytes → Bytes → Except Fault (List Bytes)
  | none, done, [] => .ok done
  | some row, done, [] => closeRow rows done row
  | cur, done, c :: tmp =>
      if isSep c then do
        let done ← closeRow rows done (cur.getD [])
        scanRows rows none done tmp
      else do
        let row ← storeByte rows done (cur.getD []) c
        scanRows rows (some row) done tmp

/-- What the control frames carry. -/
structure Control where
  ino : CInt
  name : Bytes
  inoParent : CInt
  nameParent : Bytes
  mode : CInt
deriving DecidableEq, Repr

/-- The parsing part of `rdma_create`, shared word for word by
`rdma_remove`: six rows, all of which are read. -/
def parseControl (buf : Bytes) : Except Fault Control := do
  match ← scanRows 6 none [] buf with
  | [_, r1, r2, r3, r4, r5] =>
      .ok ⟨string2int r1, r2, string2int r3, r4, string2int r5⟩
  | _ => .error .uninitialised

/-- What a read request carries. -/
structure ReadReq where
  ino : CInt
  name : Bytes
  inoParent : CInt
  nameParent : Bytes
deriving DecidableEq, Repr

/-- The parsing part of `rdma_read`: five rows. -/
def parseRead (buf : Bytes) : Except Fault ReadReq := do
  match ← scanRows 5 none [] buf with
  | [_, r1, r2, r3, r4] => .ok ⟨string2int r1, r2, string2int r3, r4⟩
  | _ => .error .uninitialised

/-- The first loop of `rdma_write`: as `scanRows`, but it stops after the
fifth row, with the index just past the separator that ended it. -/
def scanHeader : Option Bytes → List Bytes → Bytes → Except Fault (List Bytes × Bytes)
  | none, done, [] => .ok (done, [])
  | some row, done, [] => do
      let done ← closeRow 6 done row
      .ok (done, [])
  | cur, done, c :: tmp =>
      if isSep c then do
        let done ← closeRow 6 done (cur.getD [])
        if done.length = 5 then .ok (done, tmp) else scanHeader none done tmp
      else do
        let row ← storeByte 6 done (cur.getD []) c
        scanHeader (some row) done tmp

/-- The second loop of `rdma_write`: everything but carriage returns and line
feeds goes into row `j`, whose index `k` is not reset between the pieces. -/
def scanPayload (done : List Bytes) : Bytes → Bytes → Except Fault Bytes
  | row, [] => do
      let _ ← closeRow 6 done row
      .ok row
  | row, c :: tmp =>
      if c == 13 || c == 10 then do
        let _ ← closeRow 6 done row
        scanPayload done row tmp
      else do
        let row ← storeByte 6 done row c
        scanPayload done row tmp

/-- What a write request carries. -/
structure WriteReq where
  ino : CInt
  name : Bytes
  inoParent : CInt
  nameParent : Bytes
  message : Bytes
deriving DecidableEq, Repr

/-- The parsing part of `rdma_write`.  With nothing after the fifth separator
the second loop is not entered and row 5 stays unwritten. -/
def parseWrite (buf : Bytes) : Except Fault WriteReq := do
  let (done, tmp) ← scanHeader none [] buf
  match done, tmp with
  | [_, r1, r2, r3, r4], c :: tmp => do
      let r5 ← scanPayload done [] (c :: tmp)
      .ok ⟨string2int r1, r2, string2int r3, r4, r5⟩
  | _, _ => .error .uninitialised

end Wjfs
