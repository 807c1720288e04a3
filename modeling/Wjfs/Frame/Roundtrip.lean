import Wjfs.Frame.Scan

/-!
# Wjfs.Frame.Roundtrip

Control and read frames come back as they were sent exactly when both names
fit a row of `tmp_name` and hold no separator.

One direction computes the pieces of the frame (`pieces_sprintfBlank`); the
other needs nothing about the frame at all, since whatever the loops put in a
row is short and free of separators (`rows_of_parseControl`).
-/

namespace Wjfs

open Pieces

/-- A name that fits a row of `tmp_name` and holds no separator. -/
def FitsRow (s : Bytes) : Prop := s.length ≤ 19 ∧ 32 ∉ s ∧ 13 ∉ s ∧ 10 ∉ s

instance (s : Bytes) : Decidable (FitsRow s) := by unfold FitsRow; infer_instance

theorem fitsRow_iff {s : Bytes} :
    FitsRow s ↔ s.length < 20 ∧ ∀ c ∈ s, isSep c = false := by
  unfold FitsRow
  constructor
  · rintro ⟨hl, h1, h2, h3⟩
    refine ⟨by omega, fun c hc => ?_⟩
    have hne : c ≠ 32 ∧ c ≠ 13 ∧ c ≠ 10 :=
      ⟨fun h => h1 (h ▸ hc), fun h => h2 (h ▸ hc), fun h => h3 (h ▸ hc)⟩
    simp [isSep, hne]
  · rintro ⟨hl, hs⟩
    exact ⟨by omega, fun h => absurd (hs _ h) (by decide), fun h => absurd (hs _ h) (by decide),
      fun h => absurd (hs _ h) (by decide)⟩

theorem fitsRow_fmtInt (i : CInt) : FitsRow (fmtInt i) :=
  fitsRow_iff.mpr ⟨by have := length_fmtInt_le i; omega, isSep_fmtInt i⟩

theorem fitsRow_modeFlag (mode : Bool) : FitsRow (modeFlag mode) := by
  cases mode <;> decide

theorem string2int_modeFlag (mode : Bool) : string2int (modeFlag mode) ≠ 0 ↔ mode = true := by
  cases mode <;> decide

/-- Blank-separated conversions come apart at the blanks. -/
theorem pieces_sprintfBlank {ps : List Bytes} (hs : ∀ s ∈ ps, ∀ c ∈ s, isSep c = false)
    (hl : ps.getLast? ≠ some []) : pieces isSep (sprintfBlank ps) = ps := by
  induction ps with
  | nil => simp [sprintfBlank]
  | cons s ps ih =>
      have h0 := hs s List.mem_cons_self
      cases ps with
      | nil => exact pieces_singleton h0 (by simpa [sprintfBlank] using hl)
      | cons t ts =>
          rw [sprintfBlank, pieces_append_cons h0 rfl]
          · rw [ih (fun u hu => hs u (List.mem_cons_of_mem _ hu)) (by simpa using hl)]
          · simp

/-- The loops read blank-separated conversions back, if each fits a row. -/
theorem scanRows_sprintfBlank (rows : Nat) (ps : List Bytes) (hr : ps.length ≤ rows)
    (hs : ∀ s ∈ ps, FitsRow s) (hl : ps.getLast? ≠ some []) :
    scanRows rows none [] (sprintfBlank ps) = .ok ps := by
  have hp := pieces_sprintfBlank (fun s h => (fitsRow_iff.mp (hs s h)).2) hl
  rw [scanRows_eq, hp, if_pos ⟨hr, fun s h => (fitsRow_iff.mp (hs s h)).1⟩]

/-- Whatever the loops put in a row fits it. -/
theorem fitsRow_of_scanRows {rows : Nat} {tmp : Bytes} {rs : List Bytes}
    (h : scanRows rows none [] tmp = .ok rs) : ∀ r ∈ rs, FitsRow r := by
  rw [scanRows_eq] at h
  split at h
  · next hb =>
      intro r hr
      rw [← Except.ok.inj h] at hr
      exact fitsRow_iff.mpr ⟨hb.2 r hr, fun c hc => false_of_mem_pieces hr hc⟩
  · cases h

/-- A parsed control frame: its names are rows. -/
theorem fitsRow_of_parseControl {buf : Bytes} {c : Control} (h : parseControl buf = .ok c) :
    FitsRow c.name ∧ FitsRow c.nameParent := by
  unfold parseControl at h
  cases hs : scanRows 6 none [] buf with
  | error e => rw [hs] at h; cases h
  | ok rs =>
      have hfit := fitsRow_of_scanRows hs
      rw [hs] at h
      simp only [bind, Except.bind] at h
      split at h
      · next r0 r1 r2 r3 r4 r5 =>
          rw [← Except.ok.inj h]
          exact ⟨hfit r2 (by simp), hfit r4 (by simp)⟩
      · cases h

/-- A parsed read request: its names are rows. -/
theorem fitsRow_of_parseRead {buf : Bytes} {c : ReadReq} (h : parseRead buf = .ok c) :
    FitsRow c.name ∧ FitsRow c.nameParent := by
  unfold parseRead at h
  cases hs : scanRows 5 none [] buf with
  | error e => rw [hs] at h; cases h
  | ok rs =>
      have hfit := fitsRow_of_scanRows hs
      rw [hs] at h
      simp only [bind, Except.bind] at h
      split at h
      · next r0 r1 r2 r3 r4 =>
          rw [← Except.ok.inj h]
          exact ⟨hfit r2 (by simp), hfit r4 (by simp)⟩
      · cases h

/-! ## what each frame parses to -/

section Parse

variable {ino inoParent : CInt} {name nameParent : Bytes} {mode : Bool}

/-- A control frame with any two-letter tag parses to the texts that were printed,
whatever the numbers are. -/
theorem parseControl_fields {tag : Bytes} (ht : FitsRow tag) (hn : FitsRow name)
    (hp : FitsRow nameParent) :
    parseControl (sprintfBlank
        [tag, fmtInt ino, name, fmtInt inoParent, nameParent, modeFlag mode]) =
      .ok ⟨string2int (fmtInt ino), name, string2int (fmtInt inoParent), nameParent,
        string2int (modeFlag mode)⟩ := by
  have hscan := scanRows_sprintfBlank 6
    [tag, fmtInt ino, name, fmtInt inoParent, nameParent, modeFlag mode] (by simp)
    (by simp [ht, hn, hp, fitsRow_fmtInt, fitsRow_modeFlag])
    (by cases mode <;> simp [modeFlag])
  unfold parseControl
  rw [hscan]
  rfl

theorem parseControl_sprintfBlank {tag : Bytes} (ht : FitsRow tag) (hn : FitsRow name)
    (hp : FitsRow nameParent) (hi : ino.msb = false) (hip : inoParent.msb = false) :
    parseControl (sprintfBlank
        [tag, fmtInt ino, name, fmtInt inoParent, nameParent, modeFlag mode]) =
      .ok ⟨ino, name, inoParent, nameParent, string2int (modeFlag mode)⟩ := by
  rw [parseControl_fields ht hn hp, string2int_fmtInt hi, string2int_fmtInt hip]

theorem parseControl_create (hn : FitsRow name) (hp : FitsRow nameParent)
    (hi : ino.msb = false) (hip : inoParent.msb = false) :
    parseControl (wjfsClientCreate ino name inoParent nameParent mode) =
      .ok ⟨ino, name, inoParent, nameParent, string2int (modeFlag mode)⟩ :=
  parseControl_sprintfBlank (by decide) hn hp hi hip

theorem parseControl_remove (hn : FitsRow name) (hp : FitsRow nameParent)
    (hi : ino.msb = false) (hip : inoParent.msb = false) :
    parseControl (wjfsClientRemove ino name inoParent nameParent mode) =
      .ok ⟨ino, name, inoParent, nameParent, string2int (modeFlag mode)⟩ :=
  parseControl_sprintfBlank (by decide) hn hp hi hip

/-- The last conversion of a read request is the parent's name, which must
not be empty: a trailing separator ends the frame one row early. -/
theorem parseRead_readRequest (hn : FitsRow name) (hp : FitsRow nameParent)
    (hne : nameParent ≠ []) (hi : ino.msb = false) (hip : inoParent.msb = false) :
    parseRead (readRequest ino name inoParent nameParent) =
      .ok ⟨ino, name, inoParent, nameParent⟩ := by
  have hscan := scanRows_sprintfBlank 5
    [tagRD, fmtInt ino, name, fmtInt inoParent, nameParent] (by simp)
    (by simp [hn, hp, fitsRow_fmtInt]; decide) (by simp [hne])
  unfold parseRead readRequest
  rw [hscan]
  simp [bind, Except.bind, string2int_fmtInt hi, string2int_fmtInt hip]

/-- The control frame built from these values parses, inside `tmp_name`, to
the same values and a mode that is zero exactly for a non-directory. -/
def ControlSurvives (frame : Bytes) (ino : CInt) (name : Bytes) (inoParent : CInt)
    (nameParent : Bytes) (mode : Bool) : Prop :=
  ∃ c, parseControl frame = .ok c ∧ c.ino = ino ∧ c.name = name ∧ c.inoParent = inoParent ∧
    c.nameParent = nameParent ∧ (c.mode ≠ 0 ↔ mode = true)

/-- The read request parses, inside `tmp_name`, to the values it was built
from. -/
def ReadSurvives (frame : Bytes) (ino : CInt) (name : Bytes) (inoParent : CInt)
    (nameParent : Bytes) : Prop :=
  ∃ c, parseRead frame = .ok c ∧ c.ino = ino ∧ c.name = name ∧ c.inoParent = inoParent ∧
    c.nameParent = nameParent

/-- **Round trip of the control frames**: for non-negative inode numbers and
a non-empty parent name, a create, remove or read frame yields what it was
built from if and only if both names are at most 19 bytes long and hold none
of the bytes 32, 13 and 10. -/
theorem frames_survive_iff (hi : ino.toNat < 2 ^ 31) (hip : inoParent.toNat < 2 ^ 31)
    (hne : nameParent ≠ []) :
    (ControlSurvives (wjfsClientCreate ino name inoParent nameParent mode)
        ino name inoParent nameParent mode ↔ FitsRow name ∧ FitsRow nameParent) ∧
    (ControlSurvives (wjfsClientRemove ino name inoParent nameParent mode)
        ino name inoParent nameParent mode ↔ FitsRow name ∧ FitsRow nameParent) ∧
    (ReadSurvives (readRequest ino name inoParent nameParent)
        ino name inoParent nameParent ↔ FitsRow name ∧ FitsRow nameParent) := by
  have hi' : ino.msb = false := BitVec.msb_eq_false_iff_two_mul_lt.mpr (by omega)
  have hip' : inoParent.msb = false := BitVec.msb_eq_false_iff_two_mul_lt.mpr (by omega)
  have honly : ∀ frame, ControlSurvives frame ino name inoParent nameParent mode →
      FitsRow name ∧ FitsRow nameParent := by
    rintro frame ⟨c, hc, -, hn, -, hp, -⟩
    rw [← hn, ← hp]
    exact fitsRow_of_parseControl hc
  refine ⟨⟨honly _, ?_⟩, ⟨honly _, ?_⟩, ⟨?_, ?_⟩⟩
  · rintro ⟨hn, hp⟩
    exact ⟨_, parseControl_create hn hp hi' hip', rfl, rfl, rfl, rfl, string2int_modeFlag mode⟩
  · rintro ⟨hn, hp⟩
    exact ⟨_, parseControl_remove hn hp hi' hip', rfl, rfl, rfl, rfl, string2int_modeFlag mode⟩
  · rintro ⟨c, hc, -, hn, -, hp⟩
    rw [← hn, ← hp]
    exact fitsRow_of_parseRead hc
  · rintro ⟨hn, hp⟩
    exact ⟨_, parseRead_readRequest hn hp hne hi' hip', rfl, rfl, rfl, rfl⟩

/-- A read request whose parent name ends in a blank parses, but to a shorter
name. -/
theorem frames_survive_iff_trailing_blank :
    (ReadSurvives (readRequest 7 [97] 1 [98, 32]) 7 [97] 1 [98, 32] ↔
        FitsRow [97] ∧ FitsRow [98, 32]) ∧
      parseRead (readRequest 7 [97] 1 [98, 32]) = .ok ⟨7, [97], 1, [98]⟩ :=
  ⟨(@frames_survive_iff 7 1 [97] [98, 32] true (by decide) (by decide) (by decide)).2.2,
    by decide⟩

end Parse

end Wjfs
