import Mathlib.Data.BitVec
import Wjfs.Basic

/-!
# Wjfs.Table

`reg_ino_mapp_table`: for every link, which file of the peer it stands for.

The loops of `rdma_create`, `rdma_remove`, `is_my_file` and of the two
clients walk the array from its first entry; each is a recursion over the
list of entries.
-/

namespace Wjfs

/-- `struct reg_ino_mapp_table`.  `name` and `ip` are the two arrays as they
lie in memory; `used` is only ever 0 or 1. -/
structure Entry where
  name : Bytes
  localIno : CInt
  rdmaIno : CInt
  localParentIno : CInt
  rdmaParentIno : CInt
  ip : Bytes
  used : Bool
deriving DecidableEq, Repr

namespace Entry

/-- An entry of the array before it was ever written. -/
def blank : Entry where
  name := List.replicate 16 0
  localIno := 0
  rdmaIno := 0
  localParentIno := 0
  rdmaParentIno := 0
  ip := List.replicate 16 0
  used := false

/-- `strcpy` of `s` into an array with contents `a`, cut at the array's end:
the bytes past the end of `name` land in `local_ino`, which is written
next. -/
def strcpy (a s : Bytes) : Bytes := ((s ++ 0 :: a.drop (s.length + 1))).take a.length

/-- The entry as `rdma_create` fills it. -/
def fill (e : Entry) (name : Bytes) (localIno rdmaIno localParentIno rdmaParentIno : CInt)
    (ip : Bytes) : Entry where
  name := strcpy e.name name
  localIno := localIno
  rdmaIno := rdmaIno
  localParentIno := localParentIno
  rdmaParentIno := rdmaParentIno
  ip := strcpy e.ip ip
  used := true

end Entry

/-- Number of entries. -/
def tableSize : Nat := 1024

/-- The array of entries. -/
structure Table where
  entries : List Entry
  length_eq : entries.length = tableSize

namespace Table

/-- The table of a freshly loaded module. -/
def initial : Table where
  entries := List.replicate tableSize Entry.blank
  length_eq := List.length_replicate

/-- The table as `wjfs_fill_super` leaves it. -/
def clear (t : Table) : Table where
  entries := t.entries.map fun e => { e with used := false }
  length_eq := by rw [List.length_map, t.length_eq]

/-! ## the loops -/

/-- The loop of `rdma_create`: fill the first entry that is not used.
`none` when the loop runs off the array. -/
def fillFirst (f : Entry → Entry) : List Entry → Option (List Entry)
  | [] => none
  | e :: es => if e.used then (fillFirst f es).map (e :: ·) else some (f e :: es)

/-- The first used entry with the given property. -/
def findUsed (p : Entry → Bool) : List Entry → Option Entry
  | [] => none
  | e :: es => if e.used && p e then some e else findUsed p es

/-- `used = 0` in the first used entry with the given property. -/
def freeFirst (p : Entry → Bool) : List Entry → List Entry
  | [] => []
  | e :: es => if e.used && p e then { e with used := false } :: es else e :: freeFirst p es

theorem length_of_fillFirst {f : Entry → Entry} {es es' : List Entry}
    (h : fillFirst f es = some es') : es'.length = es.length := by
  induction es generalizing es' with
  | nil => cases h
  | cons e es ih =>
      unfold fillFirst at h
      by_cases hu : e.used
      · rw [if_pos hu] at h
        obtain ⟨es₁, h₁, rfl⟩ := Option.map_eq_some_iff.mp h
        simp [ih h₁]
      · rw [if_neg hu] at h
        cases h
        rfl

theorem length_freeFirst (p : Entry → Bool) (es : List Entry) :
    (freeFirst p es).length = es.length := by
  induction es with
  | nil => rfl
  | cons e es ih =>
      unfold freeFirst
      split
      · rfl
      · simp [ih]

/-! ## the operations -/

/-- The slot search and the stores at the end of `rdma_create`.  With no free
entry the loop ends with `i == 1024` and the stores go past the array. -/
def insert (t : Table) (f : Entry → Entry) : Except Fault Table :=
  match h : fillFirst f t.entries with
  | none => .error .outOfBounds
  | some es => .ok ⟨es, (length_of_fillFirst h).trans t.length_eq⟩

/-- The entries with these remote numbers, as `rdma_remove` looks for them. -/
def rdmaMatch (ino inoParent : CInt) (e : Entry) : Bool :=
  e.rdmaIno == ino && e.rdmaParentIno == inoParent

/-- The entries with these local numbers, as the clients look for them. -/
def localMatch (ino inoParent : CInt) (e : Entry) : Bool :=
  e.localIno == ino && e.localParentIno == inoParent

/-- `my_ino` of `rdma_remove`: the local number of the entry found, else 0. -/
def myIno (t : Table) (ino inoParent : CInt) : CInt :=
  ((findUsed (rdmaMatch ino inoParent) t.entries).map Entry.localIno).getD 0

/-- The table after the search of `rdma_remove`: the entry found is free. -/
def release (t : Table) (ino inoParent : CInt) : Table where
  entries := freeFirst (rdmaMatch ino inoParent) t.entries
  length_eq := (length_freeFirst _ _).trans t.length_eq

/-- The remote numbers the clients find for a link, else 0 and 0. -/
def remote (t : Table) (ino inoParent : CInt) : CInt × CInt :=
  ((findUsed (localMatch ino inoParent) t.entries).map
    fun e => (e.rdmaIno, e.rdmaParentIno)).getD (0, 0)

/-- `is_my_file`, for a dentry whose inode has this number. -/
def isMyFile (t : Table) (ino : CInt) : Bool :=
  (findUsed (fun e => e.localIno == ino) t.entries).isNone

end Table

end Wjfs
