import Wjfs.Remote

/-!
# Wjfs.Options

`wjfs_parse_options` and the parts of the kernel that it is made of: `strsep`,
which cuts the option string at its commas, `match_token`, which compares a
piece with a pattern like `mode=%o`, and `match_octal`, which reads the matched
number again.

A pointer into a string is the rest of the string from there on.  At the end of
a string the C code reads a NUL, which is no digit and no letter of a pattern.
-/

namespace Wjfs

/-! ## numbers -/

/-- `isdigit`. -/
def isdigit (c : UInt8) : Bool := 48 ≤ c && c ≤ 57

/-- `isxdigit`. -/
def isxdigit (c : UInt8) : Bool := isdigit c || 65 ≤ c && c ≤ 70 || 97 ≤ c && c ≤ 102

/-- `TOLOWER`. -/
def toLower (c : UInt8) : UInt8 := c ||| 0x20

/-- `simple_guess_base`. -/
def simpleGuessBase : Bytes → Nat
  | 48 :: x :: d :: _ => if toLower x = 120 && isxdigit d then 16 else 8
  | 48 :: _ => 8
  | _ => 10

/-- The value of a digit in `simple_strtoul`. -/
def digitValue (c : UInt8) : Nat :=
  if isdigit c then c.toNat - 48 else (toLower c).toNat - 97 + 10

/-- The loop of `simple_strtoul`: the number, and where it ends. -/
def strtoulLoop (base : Nat) (result : CInt) : Bytes → CInt × Bytes
  | [] => (result, [])
  | c :: cp =>
      if isxdigit c then
        if base ≤ digitValue c then (result, c :: cp)
        else strtoulLoop base (result * base + digitValue c) cp
      else (result, c :: cp)

/-- `"0x"` in front of a number is skipped in base 16. -/
def skipHex (base : Nat) : Bytes → Bytes
  | 48 :: x :: cp => if base = 16 ∧ toLower x = 120 then cp else 48 :: x :: cp
  | cp => cp

/-- `simple_strtoul`; `unsigned long` has 32 bits. -/
def simpleStrtoul (cp : Bytes) (base : Nat) : CInt × Bytes :=
  let base := if base = 0 then simpleGuessBase cp else base
  strtoulLoop base 0 (skipHex base cp)

/-- `simple_strtol`. -/
def simpleStrtol (cp : Bytes) (base : Nat) : CInt × Bytes :=
  match cp with
  | 45 :: cp => let r := simpleStrtoul cp base; (-r.1, r.2)
  | _ => simpleStrtoul cp base

theorem length_strtoulLoop_le (base : Nat) (result : CInt) (cp : Bytes) :
    (strtoulLoop base result cp).2.length ≤ cp.length := by
  induction cp generalizing result with
  | nil => exact Nat.le_refl _
  | cons c cp ih =>
      unfold strtoulLoop
      split
      · split
        · exact Nat.le_refl _
        · exact Nat.le_succ_of_le (ih _)
      · exact Nat.le_refl _

theorem length_skipHex_le (base : Nat) (cp : Bytes) : (skipHex base cp).length ≤ cp.length := by
  unfold skipHex
  split
  · split
    · exact Nat.le_succ_of_le (Nat.le_succ _)
    · exact Nat.le_refl _
  · exact Nat.le_refl _

theorem length_simpleStrtoul_le (cp : Bytes) (base : Nat) :
    (simpleStrtoul cp base).2.length ≤ cp.length :=
  Nat.le_trans (length_strtoulLoop_le ..) (length_skipHex_le ..)

/-! ## patterns -/

/-- `MAX_OPT_ARGS`. -/
def maxOptArgs : Nat := 3

/-- The number between a `%` and the letter, and where the letter is; -1 if
there is none. -/
def patternLength (p : Bytes) : CInt × Bytes :=
  match p with
  | c :: _ => if isdigit c then simpleStrtoul p 10 else (-1, p)
  | [] => (-1, p)

/-- The `switch` of `match_one`: where the argument ends that a conversion
finds at `s`, if it finds one. -/
def conversion (letter : Option UInt8) (len : CInt) (s : Bytes) : Option Bytes :=
  let number (stop : Bytes) : Option Bytes := if stop.length = s.length then none else some stop
  match letter with
  | some 115 => -- 's'
      if s = [] then none
      else some (s.drop (if len = -1 ∨ s.length < len.toNat then s.length else len.toNat))
  | some 100 => number (simpleStrtol s 0).2 -- 'd'
  | some 117 => number (simpleStrtoul s 0).2 -- 'u'
  | some 111 => number (simpleStrtoul s 8).2 -- 'o'
  | some 120 => number (simpleStrtoul s 16).2 -- 'x'
  | _ => none

theorem length_patternLength_le (p : Bytes) : (patternLength p).2.length ≤ p.length := by
  unfold patternLength
  split
  · split
    · exact length_simpleStrtoul_le ..
    · exact Nat.le_refl _
  · exact Nat.le_refl _

/-- The loop of `match_one`: the arguments, if the string matches the
pattern. -/
def matchLoop (s p : Bytes) (args : List Bytes) : Option (List Bytes) :=
  match _h : p.dropWhile (· ≠ 37) with
  | [] => if p = s then some args else none
  | _ :: q =>
      let n := (p.takeWhile (· ≠ 37)).length
      if s.take n ≠ p.take n then none
      else
        let s := s.drop n
        if q.head? = some 37 then
          if s.head? = some 37 then matchLoop s.tail q.tail args else none
        else if maxOptArgs ≤ args.length then none
        else
          let r := patternLength q
          match conversion r.2.head? r.1 s with
          | none => none
          | some stop => matchLoop stop r.2.tail (args ++ [s.take (s.length - stop.length)])
termination_by p.length
decreasing_by
  all_goals
    have hdrop : (p.dropWhile (· ≠ 37)).length ≤ p.length := (List.dropWhile_suffix _).length_le
    rw [_h, List.length_cons] at hdrop
  · rw [List.length_tail]
    omega
  · have hlen := length_patternLength_le q
    rw [List.length_tail]
    omega

/-- `match_one`. -/
def matchOne (s p : Bytes) : Option (List Bytes) := matchLoop s p []

/-- `match_token`: the first entry of a table whose pattern matches.  The last
entry has no pattern and always matches. -/
def matchToken {α : Type} (s : Bytes) (table : List (α × Bytes)) (last : α) : α × List Bytes :=
  match table with
  | [] => (last, [])
  | (token, p) :: table =>
      match matchOne s p with
      | some args => (token, args)
      | none => matchToken s table last

/-- `match_number`; `memory` says whether `kmalloc` finds some. -/
def matchNumber (memory : Bool) (s : Bytes) (base : Nat) : Option CInt :=
  if memory = false then none
  else
    let r := simpleStrtol s base
    if r.2.length = s.length then none else some r.1

/-- `match_octal`. -/
def matchOctal (memory : Bool) (s : Bytes) : Option CInt := matchNumber memory s 8

/-! ## the options -/

/-- `strsep`: the piece up to the first of some separators, and what follows
that. -/
def strsep (s : Option Bytes) (ct : Bytes) : Option Bytes × Option Bytes :=
  match s with
  | none => (none, none)
  | some sbegin =>
      (some (sbegin.takeWhile fun c => !ct.contains c),
        match sbegin.dropWhile fun c => !ct.contains c with
        | [] => none
        | _ :: rest => some rest)

/-- The tokens of `wjfs_parse_options`. -/
inductive OptToken where
  | mode | err
deriving DecidableEq, Repr

/-- `"mode="` -/
def modeEquals : Bytes := [109, 111, 100, 101, 61]

/-- The entries of `tokens` but the last. -/
def tokens : List (OptToken × Bytes) := [(.mode, modeEquals ++ [37, 111])]

/-- `RAMFS_DEFAULT_MODE`. -/
def ramfsDefaultMode : BitVec 12 := 0o755

/-- How much of an option string is left. -/
def leftOver : Option Bytes → Nat
  | none => 0
  | some s => s.length + 1

theorem leftOver_strsep_lt {s : Option Bytes} {ct p : Bytes} (h : (strsep s ct).1 = some p) :
    leftOver (strsep s ct).2 < leftOver s := by
  cases s with
  | none => cases h
  | some s =>
      have hle : (s.dropWhile fun c => !ct.contains c).length ≤ s.length :=
        (List.dropWhile_suffix _).length_le
      unfold strsep
      simp only
      split
      · exact Nat.succ_pos _
      next hrest =>
        rw [hrest, List.length_cons] at hle
        exact Nat.succ_lt_succ hle

/-- The loop of `wjfs_parse_options`; twelve bits of the mode are kept. -/
def optionLoop (memory : Bool) (data : Option Bytes) (mode : BitVec 12) :
    Except Errno (BitVec 12) :=
  match h : (strsep data [44]).1 with
  | none => .ok mode
  | some p =>
      have := leftOver_strsep_lt h
      if p = [] then optionLoop memory (strsep data [44]).2 mode
      else
        match matchToken p tokens .err with
        | (.mode, arg :: _) =>
            match matchOctal memory arg with
            | none => .error .einval
            | some option =>
                optionLoop memory (strsep data [44]).2 ((option &&& 0o7777).setWidth 12)
        | _ => optionLoop memory (strsep data [44]).2 mode
termination_by leftOver data

/-- `wjfs_parse_options`; `none` is a `NULL` pointer. -/
def wjfsParseOptions (memory : Bool) (data : Option Bytes) : Except Errno (BitVec 12) :=
  optionLoop memory data ramfsDefaultMode

/-- `wjfs_fill_super`, where there is memory for the root: the host that a mount
with these options begins with. -/
def Host.wjfsFillSuper (memory : Bool) (data : Option Bytes) (lastIno : CInt) (nextPtr : Ptr)
    (table : Table) : Except Errno Host := do
  let mode ← wjfsParseOptions memory data
  .ok (mounted lastIno mode nextPtr table)

end Wjfs
