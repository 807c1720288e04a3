import Wjfs.Content
import Wjfs.Paged

/-!
# Wjfs.FileOps

The two file operations, `wjfs_read` of `wjfs_read.c` and `wjfs_write` of
`wjfs_write.c`, each with its two branches.

A file of the host's own goes through the page cache
(`generic_file_aio_read`, `generic_file_aio_write` of `mm/filemap.c`, for a
file opened without `O_APPEND` and `O_DIRECT`, below every size limit and with
memory for its pages).  A link goes to the peer: the bytes pass through
`message[1024]` on the stack and a request that `sprintf` builds in
`buf[1024]`.

The user's buffer is the memory from its first byte on; nothing says where it
ends.
-/

namespace Wjfs

/-! ## the page cache of a file -/

namespace Inode

variable (i : Inode)

/-- The pages and the size of an inode. -/
def file : Paged.File UInt8 := ⟨i.pages, i.iSize⟩

/-- An inode with other pages and another size. -/
def withFile (f : Paged.File UInt8) : Inode := { i with pages := f.pages, iSize := f.size }

/-- What the file holds. -/
def contents : Bytes := Paged.contents pageSize 0 i.file

/-- `generic_file_aio_read` of `len` bytes at `ppos`: the bytes copied out.
Pages that are missing are filled with zeros on the way. -/
def genericFileAioRead (len ppos : Nat) : Inode × Bytes :=
  if len = 0 then (i, [])
  else
    let r := Paged.read pageSize 0 len i.file ppos len
    (i.withFile r.1, r.2)

/-- `generic_file_aio_write` of `buf` at `ppos`. -/
def genericFileAioWrite (buf : Bytes) (ppos : Nat) : Inode :=
  i.withFile (Paged.write pageSize 0 buf.length i.file ppos buf)

end Inode

/-! ## writing -/

/-- What `wjfs_write` leaves: the state, the value it returns, `*ppos`, and
the request it put on the wire. -/
structure WriteOutcome where
  host : Host
  ret : Nat
  ppos : Nat
  wire : Option Bytes

/-- The loop of `wjfs_write` that copies the user's bytes into the zeroed
`message[1024]`, and the C string that is then there. -/
def copyMessage (buf : Bytes) : Except Fault Bytes :=
  if bufSize < buf.length then .error .outOfBounds else cString fun j => (buf[j]?).getD 0

namespace Host

variable (env : Env) (h : Host)

/-- `wjfs_client_write`: the request is printed into `buf[1024]` and sent, if
the peer accepts the connection. -/
def sendWrite (dentry : Ptr) (message : Bytes) : Except Fault (Option Bytes) := do
  let frame ← h.wjfsClientWrite dentry message
  if !env.connects then .ok none
  else if bufSize ≤ frame.length then .error .outOfBounds
  else .ok (some frame)

/-- `wjfs_write`.  The remote branch leaves `*ppos` alone. -/
def wjfsWrite (dentry : Ptr) (buf : Bytes) (ppos : Nat) : Except Fault WriteOutcome := do
  if ← h.isMyFile dentry then
    match h.dInode? dentry with
    | none => .error .nullDeref
    | some i =>
        .ok ⟨h.setInode i (·.genericFileAioWrite buf ppos), buf.length, ppos + buf.length, none⟩
  else
    let message ← copyMessage buf
    let wire ← h.sendWrite env dentry message
    .ok ⟨h, message.length, ppos, wire⟩

end Host

/-! ## reading -/

/-- What `wjfs_read` leaves: the state, the user's memory and how much of it
was stored to, the value it returns, `*ppos`, and the counter `k`. -/
structure ReadOutcome where
  host : Host
  mem : Nat → UInt8
  stored : Nat
  ret : Nat
  ppos : Nat
  k : CInt

/-- What `krecv` into the zeroed `message[1024]` leaves of a reply. -/
def receive (reply : Bytes) : Except Fault Bytes :=
  cString fun j => ((reply.take bufSize)[j]?).getD 0

namespace Host

variable (env : Env) (h : Host) (peer : Bytes → Except Fault Bytes)

/-- `wjfs_client_read`: the C string it leaves in `message`, where `peer` is
how the peer answers a read request.  Without a connection it stays empty. -/
def fetch (dentry : Ptr) : Except Fault Bytes := do
  let frame ← h.wjfsClientRead dentry
  if env.connects then receive (← peer frame) else .ok []

/-- `wjfs_read`.  The counter `k` is a static variable of the function, so one
for all files and readers of the host.  The remote branch clears 1024 bytes
of the user's memory, whatever `len` says, and leaves `*ppos` alone. -/
def wjfsRead (k : CInt) (dentry : Ptr) (mem : Nat → UInt8) (len ppos : Nat) :
    Except Fault ReadOutcome := do
  if ← h.isMyFile dentry then
    match h.dInode? dentry with
    | none => .error .nullDeref
    | some i =>
        let r := (h.inodes i).genericFileAioRead len ppos
        .ok {
          host := h.setInode i fun _ => r.1
          mem := fun j => (r.2[j]?).getD (mem j)
          stored := r.2.length
          ret := r.2.length
          ppos := ppos + r.2.length
          k := k }
  else
    let message ← h.fetch env peer dentry
    .ok {
      host := h
      mem := fun j => if j < bufSize then (message[j]?).getD 0 else mem j
      stored := bufSize
      ret := if k.getLsbD 0 then message.length else 0
      ppos := ppos
      k := k + 1 }

end Host

/-! ## the branches in closed form -/

section Laws

variable {env : Env} {h : Host} {dentry : Ptr}

theorem pageSize_pos : 0 < pageSize := by decide

/-- A local read copies out what the file holds from `ppos` on. -/
theorem bytes_genericFileAioRead (i : Inode) (len ppos : Nat) :
    (i.genericFileAioRead len ppos).2 = (i.contents.drop ppos).take len := by
  unfold Inode.genericFileAioRead Inode.contents
  split
  · next h => simp [h]
  · rw [Paged.take_drop_contents]
    exact Paged.bytes_read pageSize_pos _ _ le_rfl

/-- A local write puts its bytes at `ppos`. -/
theorem get_genericFileAioWrite (i : Inode) (buf : Bytes) (ppos n : Nat) :
    Paged.get pageSize 0 (i.genericFileAioWrite buf ppos).file n =
      if ppos ≤ n then (buf[n - ppos]?).getD (Paged.get pageSize 0 i.file n)
      else Paged.get pageSize 0 i.file n :=
  Paged.get_write pageSize_pos _ _ le_rfl n

theorem iSize_genericFileAioWrite (i : Inode) (buf : Bytes) (ppos : Nat) :
    (i.genericFileAioWrite buf ppos).iSize =
      if buf = [] then i.iSize else max i.iSize (ppos + buf.length) :=
  Paged.size_write pageSize_pos _ _ le_rfl

/-- `put_file_message` puts its bytes at the start of the file, as long as
they stay on the first page. -/
theorem get_putFileMessage (i : Inode) {message : Bytes} (hlen : message.length ≤ pageSize)
    (n : Nat) : Paged.get pageSize 0 (putFileMessage message i).file n =
      (message[n]?).getD (Paged.get pageSize 0 i.file n) := by
  rw [Paged.get_eq_page, Paged.get_eq_page]
  by_cases hn : n / pageSize = 0
  · have hmod : n % pageSize = n := Nat.mod_eq_of_lt (Nat.lt_of_div_eq_zero pageSize_pos hn)
    simp [putFileMessage, Inode.file, Paged.page, hn, hmod]
  · have hge : pageSize ≤ n := by
      by_contra hlt
      exact hn (Nat.div_eq_of_lt (by omega))
    rw [List.getElem?_eq_none (by omega), Option.getD_none]
    simp [putFileMessage, Inode.file, Paged.page, hn]

/-! ## C strings in an array -/

/-- A C string is what stands before the first NUL of its array. -/
theorem cString_eq_ok_iff {a : Nat → UInt8} {s : Bytes} :
    cString a = .ok s ↔
      0 ∉ s ∧ s.length < bufSize ∧ ∀ j ≤ s.length, a j = (s[j]?).getD 0 := by
  have hget : ∀ j < bufSize, ((List.range bufSize).map a)[j]? = some (a j) := by
    intro j hj
    simp [hj]
  unfold cString
  constructor
  · intro h
    split at h
    · next hz =>
        obtain ⟨s', t, hl, hs'⟩ := List.eq_append_cons_of_mem hz
        have htake : ((List.range bufSize).map a).takeWhile (· ≠ 0) = s' := by
          rw [hl, List.takeWhile_append_of_pos (by grind)]
          simp
        rw [htake] at h
        obtain rfl := Except.ok.inj h
        have hlen : s'.length < bufSize := by
          have := congrArg List.length hl
          simp only [List.length_map, List.length_range, List.length_append,
            List.length_cons] at this
          omega
        refine ⟨hs', hlen, fun j hj => ?_⟩
        have hj' := hget j (by omega)
        rw [hl] at hj'
        obtain hlt | rfl := Nat.lt_or_eq_of_le hj
        · rw [List.getElem?_append_left hlt] at hj'
          rw [hj', Option.getD_some]
        · rw [List.getElem?_append_right le_rfl] at hj'
          simpa using hj'.symm
    · cases h
  · rintro ⟨hnul, hlen, ha⟩
    have hl : (List.range bufSize).map a =
        s ++ 0 :: ((List.range bufSize).map a).drop (s.length + 1) := by
      have htake : ((List.range bufSize).map a).take s.length = s := by
        apply List.ext_getElem?
        intro j
        by_cases hj : j < s.length
        · rw [List.getElem?_take, if_pos hj, hget j (by omega), ha j hj.le,
            List.getElem?_eq_getElem hj, Option.getD_some]
        · rw [List.getElem?_take, if_neg hj, List.getElem?_eq_none (by omega)]
      have hzero : ((List.range bufSize).map a)[s.length]? = some 0 := by
        rw [hget _ hlen, ha _ le_rfl, List.getElem?_eq_none le_rfl, Option.getD_none]
      obtain ⟨hlt, hz⟩ := List.getElem?_eq_some_iff.mp hzero
      calc (List.range bufSize).map a
          = ((List.range bufSize).map a).take s.length ++
              ((List.range bufSize).map a).drop s.length := (List.take_append_drop _ _).symm
        _ = s ++ 0 :: ((List.range bufSize).map a).drop (s.length + 1) := by
            rw [htake, ← List.getElem_cons_drop hlt, hz]
    rw [if_pos (by rw [hl]; simp), hl, List.takeWhile_append_of_pos (by grind)]
    simp

/-- The copy loop hands on what fits, with room for the NUL. -/
theorem copyMessage_eq_ok_iff {buf message : Bytes} (hnul : 0 ∉ buf) :
    copyMessage buf = .ok message ↔ message = buf ∧ buf.length < bufSize := by
  have hfits : buf.length < bufSize → copyMessage buf = .ok buf := by
    intro hlen
    rw [copyMessage, if_neg (by omega), cString_eq_ok_iff]
    exact ⟨hnul, hlen, fun j _ => rfl⟩
  constructor
  · intro h
    by_cases hlen : buf.length < bufSize
    · rw [hfits hlen] at h
      exact ⟨(Except.ok.inj h).symm, hlen⟩
    · exfalso
      unfold copyMessage at h
      split at h
      · cases h
      · -- all 1024 bytes are taken, so the string has no end
        obtain ⟨-, hlt, ha⟩ := cString_eq_ok_iff.mp h
        have hz := ha _ le_rfl
        rw [List.getElem?_eq_none le_rfl, List.getElem?_eq_getElem (by omega),
          Option.getD_some, Option.getD_none] at hz
        exact hnul (hz ▸ List.getElem_mem _)
  · rintro ⟨rfl, hlen⟩
    exact hfits hlen

end Laws

end Wjfs
