import Wjfs.Frame.Scan

/-!
# Wjfs.Frame.Grammar

The exact language of the four frame parsers.

`parseControl` and `parseRead` are the nested loops with a fixed number of
rows, so `scanRows_eq` already says when they succeed.  `rdma_write` stops
those loops after the fifth row and reads the rest with a second loop that
knows only two of the three separators; `scanHeader_eq` and `scanPayload_eq`
are the closed forms of its two halves.
-/

namespace Wjfs

open Pieces

/-! ## the loops of `rdma_write` -/

/-- The first loop, from any point it can be at: `n + 1` rows are still to be
filled and `cur` is what the inner loop has stored in the current one. -/
theorem scanHeader_aux (tmp : Bytes) (n : Nat) (cur : Option Bytes) (done : List Bytes)
    (hdone : done.length + (n + 1) = 5)
    (hcur : ∀ r, cur = some r → r ≠ [] ∧ ∀ c ∈ r, isSep c = false) :
    scanHeader cur done tmp =
      (if ∀ f ∈ (pieces isSep (cur.getD [] ++ tmp)).take (n + 1), f.length < 20 then
        .ok (done ++ (pieces isSep (cur.getD [] ++ tmp)).take (n + 1),
          (after isSep (n + 1) tmp).getD [])
      else .error .outOfBounds : Except Fault (List Bytes × Bytes)) := by
  induction tmp generalizing n cur done with
  | nil =>
      cases cur with
      | none => simp [scanHeader, after]
      | some r =>
          obtain ⟨hne, hr⟩ := hcur r rfl
          simp only [scanHeader, closeRow, Option.getD_some, List.append_nil,
            pieces_singleton hr hne, List.take_succ_cons, List.take_nil, List.mem_singleton,
            forall_eq, after]
          by_cases h : r.length < 20
          · rw [if_pos ⟨by omega, h⟩, if_pos h]
            rfl
          · rw [if_neg (by omega), if_neg h]
            rfl
  | cons c tmp ih =>
      have hr : ∀ x ∈ cur.getD [], isSep x = false := by
        cases cur with
        | none => simp
        | some r => exact (hcur r rfl).2
      have hstep : scanHeader cur done (c :: tmp) =
          if isSep c then (closeRow 6 done (cur.getD [])).bind
            fun done => if done.length = 5 then .ok (done, tmp) else scanHeader none done tmp
          else (storeByte 6 done (cur.getD []) c).bind
            fun row => scanHeader (some row) done tmp := by
        cases cur <;> rfl
      rw [hstep]
      by_cases hc : isSep c = true
      · -- the separator ends the row; after the fifth one the loop is left
        rw [if_pos hc, pieces_append_cons hr hc, after, if_pos hc]
        simp only [List.take_succ_cons, List.mem_cons, forall_eq_or_imp, closeRow]
        by_cases hb : (cur.getD []).length < 20
        · rw [if_pos ⟨by omega, hb⟩]
          simp only [Except.bind, List.length_append, List.length_singleton]
          cases n with
          | zero =>
              rw [if_pos (by omega), if_pos ⟨hb, by simp⟩]
              simp
          | succ n =>
              rw [if_neg (by omega), ih n none _ (by simp; omega) (by simp)]
              simp [hb]
        · rw [if_neg (by omega), if_neg (by tauto)]
          rfl
      · -- the inner loop stores one more byte
        rw [if_neg hc]
        have hc' : isSep c = false := by simpa using hc
        have hrc : ∀ x ∈ cur.getD [] ++ [c], isSep x = false := by
          intro x hx
          cases List.mem_append.mp hx with
          | inl h => exact hr x h
          | inr h => rw [List.mem_singleton.mp h]; exact hc'
        have happ : cur.getD [] ++ c :: tmp = (cur.getD [] ++ [c]) ++ tmp := by simp
        rw [happ, after, if_neg hc, storeByte]
        by_cases hb : (cur.getD []).length < 20
        · rw [if_pos ⟨by omega, hb⟩]
          simp only [Except.bind]
          rw [ih n (some (cur.getD [] ++ [c])) done hdone
            (by intro r h; rw [← Option.some.inj h]; exact ⟨by simp, hrc⟩)]
          rfl
        · rw [if_neg (by omega)]
          obtain ⟨q, qs, hq⟩ := exists_pieces_append hrc (by simp) tmp
          rw [hq, if_neg]
          · rfl
          · intro h
            rw [List.take_succ_cons] at h
            have := h _ List.mem_cons_self
            simp only [List.length_append, List.length_singleton] at this
            omega

/-- **The first loop of `rdma_write`**: the first five pieces, and what
follows the fifth separator. -/
theorem scanHeader_eq (tmp : Bytes) :
    scanHeader none [] tmp =
      (if ∀ f ∈ (pieces isSep tmp).take 5, f.length < 20 then
        .ok ((pieces isSep tmp).take 5, (after isSep 5 tmp).getD [])
      else .error .outOfBounds) :=
  scanHeader_aux tmp 4 none [] rfl (by simp)

/-- The bytes that the second loop of `rdma_write` keeps. -/
def keptByte (c : UInt8) : Bool := !(c == 13 || c == 10)

/-- **The second loop of `rdma_write`**: everything but carriage returns and
line feeds is appended to the row. -/
theorem scanPayload_eq {done : List Bytes} (hdone : done.length < 6) (row tmp : Bytes) :
    scanPayload done row tmp =
      (if (row ++ tmp.filter keptByte).length < 20 then .ok (row ++ tmp.filter keptByte)
      else .error .outOfBounds) := by
  induction tmp generalizing row with
  | nil =>
      by_cases h : row.length < 20
      · simp [scanPayload, closeRow, hdone, h, bind, Except.bind]
      · simp [scanPayload, closeRow, h, bind, Except.bind]
  | cons c tmp ih =>
      by_cases hc : (c == 13 || c == 10) = true
      · have hk : keptByte c = false := by simp [keptByte, hc]
        rw [scanPayload, if_pos hc, List.filter_cons_of_neg (by simp [hk]), closeRow]
        by_cases h : row.length < 20
        · rw [if_pos ⟨hdone, h⟩]
          exact ih row
        · rw [if_neg (by tauto), if_neg (by simp only [List.length_append]; omega)]
          rfl
      · have hk : keptByte c = true := by simpa [keptByte] using hc
        rw [scanPayload, if_neg hc, List.filter_cons_of_pos hk, storeByte]
        by_cases h : row.length < 20
        · rw [if_pos ⟨hdone, h⟩]
          have := ih (row ++ [c])
          simpa [bind, Except.bind] using this
        · rw [if_neg (by tauto), if_neg (by simp only [List.length_append]; omega)]
          rfl

/-! ## the parsers -/

/-- `n` pieces, each of which fits a row of `tmp_name`. -/
def Rows (n : Nat) (buf : Bytes) : Prop :=
  (pieces isSep buf).length = n ∧ ∀ f ∈ pieces isSep buf, f.length ≤ 19

/-- At least five pieces, the first five fit a row, and what follows the
fifth separator is not empty and fits a row once carriage returns and line
feeds are deleted. -/
def WriteRows (buf rest : Bytes) : Prop :=
  5 ≤ (pieces isSep buf).length ∧ (∀ f ∈ (pieces isSep buf).take 5, f.length ≤ 19) ∧
    after isSep 5 buf = some rest ∧ rest ≠ [] ∧ (rest.filter keptByte).length ≤ 19

/-- Five rows have names. -/
theorem exists_five {rows : List Bytes} (h : rows.length = 5) :
    ∃ r0 r1 r2 r3 r4, rows = [r0, r1, r2, r3, r4] := by
  obtain ⟨r0, rows, rfl⟩ := List.exists_cons_of_length_eq_add_one h
  obtain ⟨r1, r2, r3, r4, rfl⟩ := List.length_eq_four.mp (by simpa using h)
  exact ⟨r0, r1, r2, r3, r4, rfl⟩

/-- The loops fill `n` rows exactly on `n` pieces that fit. -/
theorem scanRows_eq_ok_iff {n : Nat} {buf : Bytes} :
    (∃ rows, scanRows n none [] buf = .ok rows ∧ rows.length = n) ↔ Rows n buf := by
  rw [scanRows_eq]
  constructor
  · rintro ⟨rows, hrows, hlen⟩
    split at hrows
    · next h =>
        rw [← Except.ok.inj hrows] at hlen
        exact ⟨hlen, fun f hf => Nat.le_of_lt_succ (h.2 f hf)⟩
    · cases hrows
  · rintro ⟨hlen, hfit⟩
    exact ⟨_, if_pos ⟨hlen.le, fun f hf => Nat.lt_succ_of_le (hfit f hf)⟩, hlen⟩

/-- Then row `j` holds piece `j`. -/
theorem scanRows_of_rows {n : Nat} {buf : Bytes} (h : Rows n buf) :
    scanRows n none [] buf = .ok (pieces isSep buf) := by
  rw [scanRows_eq]
  exact if_pos ⟨h.1.le, fun f hf => Nat.lt_succ_of_le (h.2 f hf)⟩

/-- `rdma_create` and `rdma_remove` read six rows. -/
theorem parseControl_ok_iff {buf : Bytes} : (∃ c, parseControl buf = .ok c) ↔ Rows 6 buf := by
  rw [← scanRows_eq_ok_iff]
  unfold parseControl
  cases hs : scanRows 6 none [] buf with
  | error e => simp [bind, Except.bind]
  | ok rows =>
      simp only [bind, Except.bind, Except.ok.injEq, exists_eq_left']
      split
      · simp
      · next hne =>
          simp only [reduceCtorEq, exists_false, false_iff]
          intro hlen
          obtain ⟨r0, rows, rfl⟩ := List.exists_cons_of_length_eq_add_one hlen
          obtain ⟨r1, r2, r3, r4, r5, rfl⟩ := exists_five (by simpa using hlen)
          exact hne r0 r1 r2 r3 r4 r5 rfl

/-- `rdma_read` reads five rows. -/
theorem parseRead_ok_iff {buf : Bytes} : (∃ c, parseRead buf = .ok c) ↔ Rows 5 buf := by
  rw [← scanRows_eq_ok_iff]
  unfold parseRead
  cases hs : scanRows 5 none [] buf with
  | error e => simp [bind, Except.bind]
  | ok rows =>
      simp only [bind, Except.bind, Except.ok.injEq, exists_eq_left']
      split
      · simp
      · next hne =>
          simp only [reduceCtorEq, exists_false, false_iff]
          intro hlen
          obtain ⟨r0, r1, r2, r3, r4, rfl⟩ := exists_five hlen
          exact hne r0 r1 r2 r3 r4 rfl

/-- A write request is taken apart into its first five pieces and the rest. -/
theorem parseWrite_of_writeRows {buf rest : Bytes} (h : WriteRows buf rest) :
    ∃ r0 r1 r2 r3 r4, (pieces isSep buf).take 5 = [r0, r1, r2, r3, r4] ∧
      scanHeader none [] buf = .ok ([r0, r1, r2, r3, r4], rest) ∧
      scanPayload [r0, r1, r2, r3, r4] [] rest = .ok (rest.filter keptByte) ∧
      parseWrite buf =
        .ok ⟨string2int r1, r2, string2int r3, r4, rest.filter keptByte⟩ := by
  obtain ⟨hlen, hfit, hafter, hne, hpay⟩ := h
  obtain ⟨r0, r1, r2, r3, r4, hr⟩ :=
    exists_five (show ((pieces isSep buf).take 5).length = 5 by rw [List.length_take]; omega)
  have hhead : scanHeader none [] buf = .ok ([r0, r1, r2, r3, r4], rest) := by
    rw [scanHeader_eq, if_pos fun f hf => Nat.lt_succ_of_le (hfit f hf), hafter, hr]
    rfl
  have hscan : scanPayload [r0, r1, r2, r3, r4] [] rest = .ok (rest.filter keptByte) := by
    rw [scanPayload_eq (by simp)]
    exact if_pos (Nat.lt_succ_of_le (by simpa using hpay))
  refine ⟨r0, r1, r2, r3, r4, hr, hhead, hscan, ?_⟩
  obtain ⟨c, tmp, rfl⟩ := List.exists_cons_of_ne_nil hne
  unfold parseWrite
  rw [hhead]
  simp only [bind, Except.bind, hscan]

/-- An accepted write request is of that form. -/
theorem exists_writeRows {buf : Bytes} {c : WriteReq} (h : parseWrite buf = .ok c) :
    ∃ rest, WriteRows buf rest := by
  unfold parseWrite at h
  rw [scanHeader_eq] at h
  by_cases hfit : ∀ f ∈ (pieces isSep buf).take 5, f.length < 20
  · rw [if_pos hfit] at h
    simp only [bind, Except.bind] at h
    split at h
    · next r0 r1 r2 r3 r4 b tmp hr hrest =>
        have hfive := congrArg List.length hr
        simp only [List.length_take, List.length_cons, List.length_nil] at hfive
        rw [hr, scanPayload_eq (by simp)] at h
        refine ⟨b :: tmp, by omega, fun f hf => Nat.le_of_lt_succ (hfit f hf), ?_, by simp, ?_⟩
        · cases hafter : after isSep 5 buf with
          | none => rw [hafter] at hrest; cases hrest
          | some rest => rw [hafter] at hrest; exact congrArg some hrest
        · split at h
          · cases h
          · next hpay =>
              split at hpay
              · next hl => simpa using Nat.le_of_lt_succ hl
              · cases hpay
    · cases h
  · rw [if_neg hfit] at h
    cases h

/-- **Grammar of the frames**: what each parser accepts (it stores only inside
`tmp_name` and reads only rows it filled), and what the rows then hold. -/
theorem parsers_accept_iff (buf : Bytes) :
    ((∃ c, parseControl buf = .ok c) ↔ Rows 6 buf) ∧
    (Rows 6 buf → scanRows 6 none [] buf = .ok (pieces isSep buf)) ∧
    ((∃ c, parseRead buf = .ok c) ↔ Rows 5 buf) ∧
    (Rows 5 buf → scanRows 5 none [] buf = .ok (pieces isSep buf)) ∧
    ((∃ c, parseWrite buf = .ok c) ↔ ∃ rest, WriteRows buf rest) ∧
    (∀ rest, WriteRows buf rest →
      scanHeader none [] buf = .ok ((pieces isSep buf).take 5, rest) ∧
      scanPayload ((pieces isSep buf).take 5) [] rest = .ok (rest.filter keptByte)) := by
  refine ⟨parseControl_ok_iff, scanRows_of_rows, parseRead_ok_iff, scanRows_of_rows,
    ⟨fun ⟨c, hc⟩ => exists_writeRows hc, fun ⟨rest, h⟩ => ?_⟩, fun rest h => ?_⟩
  · obtain ⟨r0, r1, r2, r3, r4, -, -, -, hp⟩ := parseWrite_of_writeRows h
    exact ⟨_, hp⟩
  · obtain ⟨r0, r1, r2, r3, r4, hr, hhead, hscan, -⟩ := parseWrite_of_writeRows h
    rw [hr]
    exact ⟨hhead, hscan⟩

end Wjfs
