import Mathlib.Data.List.TakeWhile
import Wjfs.FileOps
import Wjfs.Frame.Grammar
import Wjfs.Server
import Wjfs.Vfs

/-!
# Wjfs.ReadReply

What the server sends back for a read request.

The bytes of the file go through two stack arrays that nothing initialises
and that nothing terminates: `getFileMessage_eq_iff` says when they come
through, and `repliesRight_iff` when the reply is what the file holds.  A
number that leads to a directory, a fifo or a device is read like one that
leads to a file, though there is nothing to send.
-/

namespace Wjfs

/-- What a file holds on its first page, up to 1023 bytes and up to the first
NUL.  A page that is missing is a hole of zeros. -/
def Inode.firstString (i : Inode) : Bytes := (i.contents.take 1023).takeWhile (· ≠ 0)

/-- The copy of the file stays inside the arrays and ends in a NUL: an empty
file finds one at the start of `message`; any other has its first page, is at
most 1024 bytes long, and has a NUL in itself or right behind its end. -/
def CleanRead (stale : Stale) (i : Inode) : Prop :=
  i.iSize = 0 ∧ stale.message 0 = 0 ∨
    0 < i.iSize ∧ i.iSize ≤ bufSize ∧ ∃ page, i.pages 0 = some page ∧
      ((∃ j < i.iSize, page j = 0) ∨ i.iSize < bufSize ∧ stale.buf i.iSize = 0)

/-- The copy stays inside the arrays and starts with a NUL. -/
def EmptyRead (stale : Stale) (i : Inode) : Prop :=
  i.iSize = 0 ∧ stale.message 0 = 0 ∨
    0 < i.iSize ∧ i.iSize ≤ bufSize ∧ ∃ page, i.pages 0 = some page ∧ page 0 = 0

section Copy

variable {stale : Stale} {i : Inode} {page : Page}

/-- An array that starts with a NUL holds the empty string. -/
theorem cString_eq_nil_iff {a : Nat → UInt8} : cString a = .ok [] ↔ a 0 = 0 := by
  rw [cString_eq_ok_iff]
  simp [bufSize]

/-- A file of at most one page holds what the page does. -/
theorem contents_of_page (hpage : i.pages 0 = some page) (hsize : i.iSize ≤ pageSize) :
    i.contents = (List.range i.iSize).map page := by
  refine List.map_congr_left fun n hn => ?_
  have hlt : n < pageSize := lt_of_lt_of_le (List.mem_range.mp hn) hsize
  have hdiv : n / pageSize = 0 := Nat.div_eq_of_lt hlt
  simp [Paged.get, Inode.file, hdiv, hpage, Nat.mod_eq_of_lt hlt]

/-- The string in a list ends with the list or before a NUL. -/
theorem takeWhile_cases (l : Bytes) :
    0 ∉ l.takeWhile (· ≠ 0) ∧
      (l = l.takeWhile (· ≠ 0) ∨ ∃ t, l = l.takeWhile (· ≠ 0) ++ 0 :: t) := by
  refine ⟨fun h => by simpa using List.mem_takeWhile_imp h, ?_⟩
  have happ := List.takeWhile_append_dropWhile (p := fun c : UInt8 => decide (c ≠ 0)) (l := l)
  have hnot := List.head?_dropWhile_not (fun c : UInt8 => decide (c ≠ 0)) l
  cases hd : l.dropWhile fun c => decide (c ≠ 0) with
  | nil =>
      rw [hd, List.append_nil] at happ
      exact .inl happ.symm
  | cons c t =>
      rw [hd, List.head?_cons] at hnot
      obtain rfl : c = 0 := by simpa using hnot
      rw [hd] at happ
      exact .inr ⟨t, happ.symm⟩

/-- The copy on the stack is the file's string exactly when a NUL follows the
string there. -/
theorem cString_copy_iff (hpage : i.pages 0 = some page) (hsize : i.iSize ≤ bufSize)
    {a : Nat → UInt8} (ha : ∀ j < i.iSize, a j = page j) :
    cString a = .ok i.firstString ↔ a i.firstString.length = 0 := by
  have hcont := contents_of_page hpage (hsize.trans (by decide))
  have hnul := (takeWhile_cases (i.contents.take 1023)).1
  have hpre : i.firstString <+: (List.range i.iSize).map page :=
    ((List.takeWhile_prefix _).trans (List.take_prefix _ _)).trans (by rw [hcont])
  have hlen : i.firstString.length ≤ 1023 :=
    (List.takeWhile_sublist _).length_le.trans (List.length_take_le _ _)
  have hle : i.firstString.length ≤ i.iSize := by simpa using hpre.length_le
  have hget : ∀ j < i.firstString.length, a j = (i.firstString[j]?).getD 0 := by
    intro j hj
    have := List.prefix_iff_getElem?.mp hpre j hj
    rw [List.getElem?_map, List.getElem?_range (by omega), Option.map_some] at this
    rw [List.getElem?_eq_getElem hj, ← this, ha j (by omega), Option.getD_some]
  rw [cString_eq_ok_iff]
  constructor
  · rintro ⟨-, -, h⟩
    simpa using h _ le_rfl
  · intro h
    refine ⟨hnul, by rw [bufSize]; omega, fun j hj => ?_⟩
    obtain hlt | rfl := Nat.lt_or_eq_of_le hj
    · exact hget j hlt
    · simpa using h

/-- What a short file's string looks like on its page: no NUL before its end,
and one at its end if the file goes on there. -/
theorem page_firstString (hpage : i.pages 0 = some page) (hsize : i.iSize ≤ pageSize) :
    i.firstString.length ≤ min i.iSize 1023 ∧
      (∀ j < i.firstString.length, page j ≠ 0) ∧
      (i.firstString.length < min i.iSize 1023 → page i.firstString.length = 0) := by
  have hcont := contents_of_page hpage hsize
  obtain ⟨hnul, hcases⟩ := takeWhile_cases (i.contents.take 1023)
  have hlen : (i.contents.take 1023).length = min i.iSize 1023 := by
    rw [hcont]
    simp [Nat.min_comm]
  have hget : ∀ j < min i.iSize 1023, (i.contents.take 1023)[j]? = some (page j) := by
    intro j hj
    obtain ⟨h₁, h₂⟩ := Nat.lt_min.mp hj
    rw [List.getElem?_take, if_pos h₂, hcont, List.getElem?_map, List.getElem?_range h₁]
    rfl
  change 0 ∉ i.firstString at hnul
  change _ = i.firstString ∨ ∃ t, _ = i.firstString ++ 0 :: t at hcases
  have hpre : i.firstString <+: i.contents.take 1023 := List.takeWhile_prefix _
  have hle : i.firstString.length ≤ min i.iSize 1023 := hlen ▸ hpre.length_le
  refine ⟨hle, fun j hj hz => ?_, fun hlt => ?_⟩
  · have hj' := List.prefix_iff_getElem?.mp hpre j hj
    rw [hget j (lt_of_lt_of_le hj hle), hz, Option.some.injEq] at hj'
    exact hnul (hj' ▸ List.getElem_mem hj)
  · obtain heq | ⟨t, ht⟩ := hcases
    · rw [heq] at hlen
      omega
    · have hz := hget _ hlt
      rw [ht, List.getElem?_append_right le_rfl, Nat.sub_self] at hz
      exact (Option.some.inj hz).symm

/-- A NUL follows the string in the copy exactly when the file has one, or the
array does right behind the file. -/
theorem nul_after_firstString_iff (hpage : i.pages 0 = some page) (hsize : i.iSize ≤ bufSize) :
    (if i.firstString.length < i.iSize then page i.firstString.length
      else stale.buf i.firstString.length) = 0 ↔
      (∃ j < i.iSize, page j = 0) ∨ i.iSize < bufSize ∧ stale.buf i.iSize = 0 := by
  obtain ⟨hle, hnz, hz⟩ := page_firstString hpage (hsize.trans (by decide))
  obtain ⟨hle₁, hle₂⟩ := Nat.le_min.mp hle
  have hbuf : bufSize = 1024 := rfl
  constructor
  · intro h
    by_cases hend : i.firstString.length < i.iSize
    · rw [if_pos hend] at h
      exact .inl ⟨_, hend, h⟩
    · rw [if_neg hend] at h
      have heq : i.firstString.length = i.iSize := by omega
      rw [heq] at h
      exact .inr ⟨by omega, h⟩
  · rintro (⟨j, hj, hpj⟩ | ⟨hlt, hb⟩)
    · have hge : i.firstString.length ≤ j := by
        by_contra hc
        exact hnz j (by omega) hpj
      rw [if_pos (by omega)]
      by_cases hlast : i.firstString.length = 1023
      · -- the one NUL is the last of 1024 bytes
        have : j = i.firstString.length := by omega
        rw [← this, hpj]
      · exact hz (Nat.lt_min.mpr ⟨by omega, by omega⟩)
    · by_cases hend : i.firstString.length < i.iSize
      · rw [if_pos hend]
        exact hz (Nat.lt_min.mpr ⟨hend, by omega⟩)
      · have heq : i.firstString.length = i.iSize := by omega
        rw [if_neg hend, heq, hb]

/-- What `get_file_message` leaves: the string in `message` for an empty file,
otherwise the string in the copy, if the first page is there and the file fits
into the array. -/
theorem getFileMessage_eq_ok_iff {s : Bytes} :
    getFileMessage stale i = .ok s ↔
      i.iSize = 0 ∧ cString stale.message = .ok s ∨
        0 < i.iSize ∧ i.iSize ≤ bufSize ∧ ∃ page, i.pages 0 = some page ∧
          cString (fun k => if k < i.iSize then page k else stale.buf k) = .ok s := by
  unfold getFileMessage
  by_cases hzero : i.iSize = 0
  · simp [hzero]
  have hpos : 0 < i.iSize := Nat.pos_of_ne_zero hzero
  rw [if_neg hzero]
  cases hpage : i.pages 0 with
  | none => simp [hzero]
  | some page =>
      have hlength : copyLength i.iSize = min i.iSize pageSize := by
        unfold copyLength
        split <;> omega
      by_cases hbig : bufSize < i.iSize
      · have hover : bufSize < copyLength i.iSize := by
          rw [hlength]
          exact Nat.lt_min.mpr ⟨hbig, by decide⟩
        simp [if_pos hover, hzero, Nat.not_le.mpr hbig]
      · have hsize : i.iSize ≤ bufSize := Nat.not_lt.mp hbig
        have hcopy : copyLength i.iSize = i.iSize := by
          rw [hlength, Nat.min_eq_left (hsize.trans (by decide))]
        simp [hcopy, hbig, hzero, hpos, hsize]

/-- **The copy through the stack**: `get_file_message` hands on what the file
holds exactly when the copy is clean. -/
theorem getFileMessage_eq_iff :
    getFileMessage stale i = .ok i.firstString ↔ CleanRead stale i := by
  rw [getFileMessage_eq_ok_iff]
  refine or_congr (and_congr_right fun hzero => ?_) (and_congr_right fun hpos =>
    and_congr_right fun hsize => exists_congr fun page => and_congr_right fun hpage => ?_)
  · have hempty : i.firstString = [] := by
      have : i.contents = [] := by simp [Inode.contents, Paged.contents, Inode.file, hzero]
      rw [Inode.firstString, this]
      rfl
    rw [hempty, cString_eq_nil_iff]
  · rw [cString_copy_iff hpage hsize fun j hj => if_pos hj, nul_after_firstString_iff hpage hsize]

/-- `get_file_message` hands on the empty string exactly when the copy starts
with a NUL. -/
theorem getFileMessage_eq_nil_iff : getFileMessage stale i = .ok [] ↔ EmptyRead stale i := by
  rw [getFileMessage_eq_ok_iff]
  refine or_congr (and_congr_right fun _ => cString_eq_nil_iff) (and_congr_right fun hpos =>
    and_congr_right fun _ => exists_congr fun page => and_congr_right fun _ => ?_)
  rw [cString_eq_nil_iff, if_pos hpos]

end Copy

/-! ## the reply -/

namespace Host

variable {h : Host} {stale : Stale} {buf : Bytes} {req : ReadReq}

/-- What the reply to a read request should be: what the regular file found
under the number holds, and nothing if no regular file is found. -/
def rightReply (h : Host) (req : ReadReq) : Bytes :=
  match (h.findDentryByIno h.root req.ino).bind (·.dInode) with
  | some i => if (h.inodes i).iMode.fmt = .reg then (h.inodes i).firstString else []
  | none => []

/-- The server's reply to an accepted read request is what it should be, and
the copy on the way to it stays inside the arrays. -/
def RepliesRight (h : Host) (stale : Stale) (buf : Bytes) (req : ReadReq) : Prop :=
  h.rdmaRead stale buf = .ok (h.rightReply req)

/-- What the arrays and the inode found have to be like: a regular file is
copied cleanly, and the copy of anything else is empty. -/
def ReadsRight (h : Host) (stale : Stale) (i : Ptr) : Prop :=
  if (h.inodes i).iMode.fmt = .reg then CleanRead stale (h.inodes i)
  else EmptyRead stale (h.inodes i)

/-- **Reply to a read**: for every tree, every accepted read request and
everything that may lie in the stack arrays, the reply is right if and only
if an inode is found and its copy is clean, for a regular file, or empty, for
a directory, a fifo or a device. -/
theorem repliesRight_iff (hacc : parseRead buf = .ok req) :
    RepliesRight h stale buf req ↔
      ∃ d i, h.findDentryByIno h.root req.ino = some d ∧ d.dInode = some i ∧
        h.ReadsRight stale i := by
  unfold RepliesRight rightReply
  cases hd : h.findDentryByIno h.root req.ino with
  | none =>
      -- the buffer still holds the request, which is not empty
      have hreply : h.rdmaRead stale buf = .ok buf := by
        simp [rdmaRead, hacc, hd, bind, Except.bind]
      have hne : buf ≠ [] := by
        rintro rfl
        cases hacc
      simp [hreply, hne]
  | some d =>
      cases hi : d.dInode with
      | none =>
          have hfault : h.rdmaRead stale buf = .error .nullDeref := by
            simp [rdmaRead, hacc, hd, hi, bind, Except.bind]
          simp [hfault, hi]
      | some i =>
          have hreply : h.rdmaRead stale buf = getFileMessage stale (h.inodes i) := by
            simp [rdmaRead, hacc, hd, hi, bind, Except.bind]
          rw [hreply, Option.bind_some, hi]
          simp only [ReadsRight, Option.some.injEq, exists_and_left, exists_eq_left', hi]
          by_cases hreg : (h.inodes i).iMode.fmt = .reg
          · rw [if_pos hreg, if_pos hreg]
            exact getFileMessage_eq_iff
          · rw [if_neg hreg, if_neg hreg]
            exact getFileMessage_eq_nil_iff

end Host

/-- With zeros on the stack the file that holds `"hi"` is sent back. -/
theorem repliesRight_iff_hi :
    (holding [104, 105]).RepliesRight zeroStack readF ⟨2, [102], 1, Host.rootName⟩ := by
  have hfind : ((holding [104, 105]).findDentryByIno (holding [104, 105]).root 2).map (·.dInode) =
      some (some 3) := by decide
  obtain ⟨d, hd, hi⟩ := Option.map_eq_some_iff.mp hfind
  refine (Host.repliesRight_iff (by decide)).mpr ⟨d, 3, hd, hi, ?_⟩
  exact (if_pos rfl).mpr (.inr ⟨by decide, by decide, _, rfl, .inr ⟨by decide, rfl⟩⟩)

/-- A stack that still holds `"AA"`. -/
def staleAA : Stale := ⟨fun j => if j < 2 then 65 else 0, fun _ => 0⟩

/-- A stack without a NUL. -/
def fullStack : Stale := ⟨fun _ => 65, fun _ => 65⟩

/-- A fresh mount after `mkdir("/d")`. -/
def withD : Outcome :=
  (Host.mounted 0 0o755 0 Table.initial).sysMkdir (.server true) [] [100] 0o755

/-- `"RD 2 d 1 /"`. -/
def readD : Bytes := readRequest 2 [100] 1 Host.rootName

/-- Where nothing is found, the reply is the request; the reply to a read of an
empty file is whatever the stack holds; and so is the reply to a read of a
directory, which runs past the array if the stack holds no NUL. -/
theorem reply_is_not_the_file :
    ((holding []).findDentryByIno (holding []).root 9 = none ∧
      parseRead (readRequest 9 [102] 1 Host.rootName) = .ok ⟨9, [102], 1, Host.rootName⟩ ∧
      (holding []).rdmaRead zeroStack (readRequest 9 [102] 1 Host.rootName) =
        .ok (readRequest 9 [102] 1 Host.rootName)) ∧
    (((holding []).inodes 3).iSize = 0 ∧
      (holding []).rdmaRead staleAA readF = .ok [65, 65]) ∧
    withD.toOption.map (fun r => (r.2, r.1.rightReply ⟨2, [100], 1, Host.rootName⟩)) =
      some (none, []) ∧
    withD.toOption.map (fun r => (r.1.rdmaRead staleAA readD).toOption) = some (some [65, 65]) ∧
    withD.toOption.map (fun r => (r.1.rdmaRead fullStack readD).toOption) = some none := by
  decide +kernel

end Wjfs
