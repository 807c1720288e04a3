import Mathlib.Data.List.TakeWhile
import Wjfs.Options

/-!
# Wjfs.Options.Laws

What mount options do: `wjfsParseOptions_spec`.

The proof follows the code.  The loop of `simple_strtoul` takes the digits from
the front of a string (`strtoulLoop_eq`).  A piece matches `mode=%o` if nothing
but octal digits follows the equals sign (`matchOne_mode`), so that
`match_octal`, which reads these digits once more, cannot fail
(`matchOctal_digits`).  And `strsep` hands out the pieces between the commas
one by one (`optionPieces_strsep`); the last one that matches wins.
-/

namespace Wjfs

/-! ## numbers -/

/-- A character that `simple_strtoul` takes for a digit. -/
def isDigitIn (base : Nat) (c : UInt8) : Bool := isxdigit c && decide (digitValue c < base)

/-- The loop takes the digits from the front. -/
theorem strtoulLoop_eq (base : Nat) (result : CInt) (cp : Bytes) : strtoulLoop base result cp =
    ((cp.takeWhile (isDigitIn base)).foldl (fun (r : CInt) c => r * base + digitValue c) result,
      cp.dropWhile (isDigitIn base)) := by
  induction cp generalizing result with
  | nil => rfl
  | cons c cp ih =>
      unfold strtoulLoop
      by_cases hx : isxdigit c = true
      · by_cases hv : base ≤ digitValue c
        · simp [isDigitIn, hx, hv, Nat.not_lt_of_le hv]
        · simp [isDigitIn, hx, hv, Nat.lt_of_not_le hv, ih]
      · simp [isDigitIn, hx]

/-- An octal digit. -/
def isOctal (c : UInt8) : Bool := 48 ≤ c && c ≤ 55

theorem isOctal_iff {c : UInt8} : isOctal c = true ↔ 48 ≤ c.toNat ∧ c.toNat ≤ 55 := by
  simp [isOctal, UInt8.le_iff_toNat_le]

/-- The digits in base 8. -/
theorem isDigitIn_eight (c : UInt8) : isDigitIn 8 c = isOctal c := by
  have hdigit : isdigit c = true ↔ 48 ≤ c.toNat ∧ c.toNat ≤ 57 := by
    simp [isdigit, UInt8.le_iff_toNat_le]
  rw [Bool.eq_iff_iff, isOctal_iff, isDigitIn, Bool.and_eq_true, decide_eq_true_eq, digitValue]
  by_cases hd : isdigit c = true
  · have hx : isxdigit c = true := by simp [isxdigit, hd]
    have hbounds := hdigit.mp hd
    rw [if_pos hd]
    simp only [hx, true_and]
    omega
  · -- a letter stands for ten at least
    rw [if_neg hd]
    constructor
    · intro h
      omega
    · intro h
      exact absurd (hdigit.mpr ⟨h.1, by omega⟩) hd

theorem digitValue_of_isOctal {c : UInt8} (h : isOctal c = true) : digitValue c = c.toNat - 48 := by
  have hbounds := isOctal_iff.mp h
  have hd : isdigit c = true := by
    simp [isdigit, UInt8.le_iff_toNat_le]
    omega
  rw [digitValue, if_pos hd]

/-- `simple_strtoul` in base 8. -/
theorem simpleStrtoul_eight (cp : Bytes) : simpleStrtoul cp 8 =
    ((cp.takeWhile isOctal).foldl (fun (r : CInt) c => r * 8 + digitValue c) 0,
      cp.dropWhile isOctal) := by
  have hskip : skipHex 8 cp = cp := by
    unfold skipHex
    split
    · rw [if_neg (by simp)]
    · rfl
  have hdigits : isDigitIn 8 = isOctal := funext isDigitIn_eight
  simp only [simpleStrtoul, if_neg (show ¬ (8 : Nat) = 0 by decide), hskip, strtoulLoop_eq, hdigits]
  rfl

/-- The value of a string of octal digits. -/
def octalValue (ds : Bytes) : Nat := ds.foldl (fun n c => n * 8 + (c.toNat - 48)) 0

/-- The loop computes it, modulo the width. -/
theorem foldl_octal {ds : Bytes} (hds : ∀ c ∈ ds, isOctal c = true) (n : Nat) :
    ds.foldl (fun (r : CInt) c => r * 8 + digitValue c) (n : CInt) =
      ((ds.foldl (fun n c => n * 8 + (c.toNat - 48)) n : Nat) : CInt) := by
  induction ds generalizing n with
  | nil => rfl
  | cons c ds ih =>
      have hc := digitValue_of_isOctal (hds c List.mem_cons_self)
      rw [List.foldl_cons, List.foldl_cons, hc, ← ih fun x hx => hds x (List.mem_cons_of_mem c hx)]
      congr 1
      push_cast
      rfl

/-- A string of octal digits is read to its end. -/
theorem simpleStrtoul_digits {ds : Bytes} (hds : ∀ c ∈ ds, isOctal c = true) :
    simpleStrtoul ds 8 = ((octalValue ds : CInt), []) := by
  rw [simpleStrtoul_eight, List.takeWhile_eq_self_iff.mpr hds, List.dropWhile_eq_nil_iff.mpr hds]
  exact congrArg (·, []) (foldl_octal hds 0)

/-- `match_octal` does not fail for a string of octal digits. -/
theorem matchOctal_digits {ds : Bytes} (hne : ds ≠ []) (hds : ∀ c ∈ ds, isOctal c = true) :
    matchOctal true ds = some (octalValue ds : CInt) := by
  have hstrtol : simpleStrtol ds 8 = simpleStrtoul ds 8 := by
    unfold simpleStrtol
    split
    · exact absurd (hds 45 List.mem_cons_self) (by decide)
    · rfl
  have hlen : ¬ ([] : Bytes).length = ds.length := fun h =>
    hne (List.length_eq_zero_iff.mp h.symm)
  simp only [matchOctal, matchNumber, hstrtol, simpleStrtoul_digits hds, if_neg hlen]
  rfl

/-! ## the pattern -/

theorem matchLoop_nil (s : Bytes) (args : List Bytes) :
    matchLoop s [] args = if s = [] then some args else none := by
  unfold matchLoop
  simp [eq_comm]

/-- The argument that `%o` finds. -/
theorem conversion_octal (len : CInt) (s : Bytes) : conversion (some 111) len s =
    if (s.dropWhile isOctal).length = s.length then none else some (s.dropWhile isOctal) := by
  simp only [conversion, simpleStrtoul_eight]

/-- What matches `mode=%o`, and with which argument. -/
theorem matchOne_mode {s : Bytes} {args : List Bytes} :
    matchOne s (modeEquals ++ [37, 111]) = some args ↔
      s.take 5 = modeEquals ∧ s.drop 5 ≠ [] ∧ (∀ c ∈ s.drop 5, isOctal c = true) ∧
        args = [s.drop 5] := by
  have hdrop : (modeEquals ++ [37, 111]).dropWhile (· ≠ 37) = [37, 111] := by decide
  have htake : ((modeEquals ++ [37, 111]).takeWhile (· ≠ 37)).length = 5 := by decide
  have hlit : (modeEquals ++ [37, 111]).take 5 = modeEquals := by decide
  have hletter : patternLength [111] = (-1, [111]) := by decide
  unfold matchOne matchLoop
  split
  next h =>
    rw [hdrop] at h
    cases h
  next q h =>
    rw [hdrop] at h
    cases h
    simp only [htake, hlit, hletter]
    by_cases hs : s.take 5 = modeEquals
    swap
    · simp [hs]
    generalize s.drop 5 = ds
    simp only [hs, ne_eq, not_true, if_false, List.head?_cons, conversion_octal, List.tail_cons,
      matchLoop_nil, List.nil_append, true_and]
    rw [if_neg (by decide), if_neg (by decide)]
    by_cases hall : ∀ c ∈ ds, isOctal c = true
    · rw [List.dropWhile_eq_nil_iff.mpr hall]
      cases ds with
      | nil => simp
      | cons c ds =>
          have hlen : ¬ ([] : Bytes).length = (c :: ds).length := by simp
          rw [if_neg hlen]
          show (if ([] : Bytes) = [] then some [(c :: ds).take ((c :: ds).length - 0)] else none) =
            some args ↔ _
          rw [if_pos rfl, Nat.sub_zero, List.take_length]
          exact ⟨fun h => ⟨List.cons_ne_nil c ds, hall, (Option.some.inj h).symm⟩,
            fun h => by rw [h.2.2]⟩
    · have hne : ds.dropWhile isOctal ≠ [] := fun h => hall (List.dropWhile_eq_nil_iff.mp h)
      have hno : ¬ (¬ ds = [] ∧ (∀ c ∈ ds, isOctal c = true) ∧ args = [ds]) := fun h => hall h.2.1
      rw [iff_false_right hno]
      by_cases hlen : (ds.dropWhile isOctal).length = ds.length
      · simp [hlen]
      · simp [hlen, hne]

/-! ## the pieces -/

/-- A piece of the form `mode=` followed by octal digits and nothing else, at
least one of them, and the value of the digits. -/
def SetsMode (piece : Bytes) (v : Nat) : Prop :=
  ∃ ds, ds ≠ [] ∧ (∀ c ∈ ds, isOctal c = true) ∧ piece = modeEquals ++ ds ∧ octalValue ds = v

/-- The pieces of an option string between its commas. -/
def optionPieces : Option Bytes → List Bytes
  | none => []
  | some s => s.splitOn 44

/-- A piece sets the mode, or has no effect. -/
theorem matchToken_cases (p : Bytes) :
    (∃ ds, ds ≠ [] ∧ (∀ c ∈ ds, isOctal c = true) ∧ p = modeEquals ++ ds ∧
      matchToken p tokens .err = (.mode, [ds])) ∨
    (∀ v, ¬ SetsMode p v) ∧ matchToken p tokens .err = (.err, []) := by
  cases hm : matchOne p (modeEquals ++ [37, 111]) with
  | some args =>
      obtain ⟨htake, hne, hds, rfl⟩ := matchOne_mode.mp hm
      refine .inl ⟨p.drop 5, hne, hds, ?_, ?_⟩
      · rw [← htake, List.take_append_drop]
      · simp only [matchToken, tokens, hm]
  | none =>
      refine .inr ⟨?_, ?_⟩
      · rintro v ⟨ds, hne, hds, rfl, -⟩
        have hsome : matchOne (modeEquals ++ ds) (modeEquals ++ [37, 111]) = some [ds] :=
          matchOne_mode.mpr ⟨rfl, hne, hds, rfl⟩
        rw [hm] at hsome
        cases hsome
      · simp only [matchToken, tokens, hm]

/-- `strsep` hands out the first piece. -/
theorem optionPieces_strsep (s : Bytes) :
    ∃ p, (strsep (some s) [44]).1 = some p ∧
      optionPieces (some s) = p :: optionPieces (strsep (some s) [44]).2 := by
  have hsep : ∀ c : UInt8, (!([44] : Bytes).contains c) = !(c == 44) := fun c => by
    by_cases hc : c = 44 <;> simp [hc]
  have hsplit := List.takeWhile_append_dropWhile (p := fun c => !([44] : Bytes).contains c) (l := s)
  have hfirst : ∀ c ∈ s.takeWhile fun c => !([44] : Bytes).contains c, (c == 44) = false := by
    intro c hc
    have := List.mem_takeWhile_imp hc
    simpa [hsep] using this
  refine ⟨_, rfl, ?_⟩
  unfold strsep
  simp only [optionPieces, List.splitOn_eq_splitOnP]
  cases hd : s.dropWhile fun c => !([44] : Bytes).contains c with
  | nil =>
      rw [hd, List.append_nil] at hsplit
      rw [hsplit]
      rw [hsplit] at hfirst
      exact List.splitOnP_eq_singleton hfirst
  | cons c rest =>
      have hc : (c == 44) = true := by
        have hhead := List.head?_dropWhile_not (fun c => !([44] : Bytes).contains c) s
        rw [hd] at hhead
        simpa using hhead
      rw [hd] at hsplit
      nth_rewrite 1 [← hsplit]
      exact List.splitOnP_append_cons_of_forall_mem hfirst c hc rest

theorem not_setsMode_nil (v : Nat) : ¬ SetsMode [] v := by
  rintro ⟨ds, -, -, h, -⟩
  cases h

/-- The mask keeps twelve bits. -/
theorem toNat_mode (v : Nat) : (((v : CInt) &&& 0o7777).setWidth 12).toNat = v % 2 ^ 12 := by
  have hmask : v % 2 ^ 32 &&& 0o7777 = v % 2 ^ 32 % 2 ^ 12 := Nat.and_two_pow_sub_one_eq_mod _ 12
  rw [BitVec.toNat_setWidth, BitVec.toNat_and]
  show (v % 2 ^ 32 &&& 0o7777) % 2 ^ 12 = v % 2 ^ 12
  rw [hmask]
  omega

/-- What the loop makes of the first piece. -/
theorem optionLoop_some (s : Bytes) (mode : BitVec 12) :
    ∃ p mode', optionPieces (some s) = p :: optionPieces (strsep (some s) [44]).2 ∧
      optionLoop true (some s) mode = optionLoop true (strsep (some s) [44]).2 mode' ∧
      ((∃ v, SetsMode p v ∧ mode'.toNat = v % 2 ^ 12) ∨ (∀ v, ¬ SetsMode p v) ∧ mode' = mode) := by
  obtain ⟨p, hp, hpieces⟩ := optionPieces_strsep s
  rw [optionLoop]
  split
  next h =>
    rw [hp] at h
    cases h
  next p' h =>
    rw [hp] at h
    cases h
    by_cases hnil : p = []
    · subst hnil
      exact ⟨[], mode, hpieces, by simp, .inr ⟨not_setsMode_nil, rfl⟩⟩
    obtain ⟨ds, hne, hds, rfl, hmatch⟩ | ⟨hno, hmatch⟩ := matchToken_cases p
    · refine ⟨_, ((octalValue ds : CInt) &&& 0o7777).setWidth 12, hpieces, ?_, ?_⟩
      · rw [if_neg hnil]
        simp only [hmatch, matchOctal_digits hne hds]
      · exact .inl ⟨octalValue ds, ⟨ds, hne, hds, rfl, rfl⟩, toNat_mode _⟩
    · refine ⟨p, mode, hpieces, ?_, .inr ⟨hno, rfl⟩⟩
      rw [if_neg hnil]
      simp only [hmatch]

/-! ## the whole string -/

/-- The mode that a list of pieces chooses: the value of the last one that sets
it, modulo `2 ^ 12`, or else the one there was before. -/
def Chooses (l : List Bytes) (old mode : BitVec 12) : Prop :=
  (∃ before piece after v, l = before ++ piece :: after ∧ SetsMode piece v ∧
    (∀ q ∈ after, ∀ w, ¬ SetsMode q w) ∧ mode.toNat = v % 2 ^ 12) ∨
  (∀ q ∈ l, ∀ w, ¬ SetsMode q w) ∧ mode = old

theorem Chooses.cons {p : Bytes} {l : List Bytes} {old mode mode' : BitVec 12}
    (hp : (∃ v, SetsMode p v ∧ mode'.toNat = v % 2 ^ 12) ∨ (∀ v, ¬ SetsMode p v) ∧ mode' = old)
    (hl : Chooses l mode' mode) : Chooses (p :: l) old mode := by
  obtain ⟨before, piece, after, v, rfl, hv, hafter, hmode⟩ | ⟨hno, rfl⟩ := hl
  · exact .inl ⟨p :: before, piece, after, v, rfl, hv, hafter, hmode⟩
  · obtain ⟨v, hv, hmode⟩ | ⟨hnot, rfl⟩ := hp
    · exact .inl ⟨[], p, l, v, rfl, hv, hno, hmode⟩
    · exact .inr ⟨List.forall_mem_cons.mpr ⟨hnot, hno⟩, rfl⟩

/-- The loop returns what the pieces choose, whatever they are. -/
theorem optionLoop_spec (data : Option Bytes) (old : BitVec 12) :
    ∃ mode, optionLoop true data old = .ok mode ∧ Chooses (optionPieces data) old mode := by
  induction hn : leftOver data using Nat.strong_induction_on generalizing data old with
  | _ n ih =>
  cases data with
  | none => exact ⟨old, by rw [optionLoop]; rfl, .inr ⟨fun q hq => absurd hq List.not_mem_nil, rfl⟩⟩
  | some s =>
      obtain ⟨p, mode', hpieces, hloop, hp⟩ := optionLoop_some s old
      have hlt : leftOver (strsep (some s) [44]).2 < n := hn ▸ leftOver_strsep_lt rfl
      obtain ⟨mode, hok, hl⟩ := ih _ hlt (strsep (some s) [44]).2 mode' rfl
      refine ⟨mode, hloop.trans hok, ?_⟩
      rw [hpieces]
      exact hl.cons hp

/-- **Mount options.**  For every option string, and for none,
`wjfs_parse_options` returns 0 if there is memory for what it copies, and the
mode is the value, modulo `2 ^ 12`, of the last piece that is `mode=` and octal
digits, or 0755.  Whatever else the string holds has no effect. -/
theorem wjfsParseOptions_spec (data : Option Bytes) :
    ∃ mode, wjfsParseOptions true data = .ok mode ∧ Chooses (optionPieces data) 0o755 mode :=
  optionLoop_spec data ramfsDefaultMode

/-- So no option string keeps a host from being mounted. -/
theorem Host.wjfsFillSuper_mounted (data : Option Bytes) (lastIno : CInt) (nextPtr : Ptr)
    (table : Table) : ∃ mode, Chooses (optionPieces data) ramfsDefaultMode mode ∧
      wjfsFillSuper true data lastIno nextPtr table = .ok (mounted lastIno mode nextPtr table) := by
  obtain ⟨mode, hok, hmode⟩ := optionLoop_spec data ramfsDefaultMode
  refine ⟨mode, hmode, ?_⟩
  rw [wjfsFillSuper, wjfsParseOptions, hok]
  rfl

end Wjfs
