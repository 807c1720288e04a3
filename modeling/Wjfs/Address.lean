import Wjfs.Layout
import Wjfs.Options.Laws

/-!
# Wjfs.Address

`inet_addr` of the socket module, over the kernel's `sscanf`, and that it reads
back every address that `inet_ntoa` prints (`inetAddr_inetNtoa`).

A client turns the address that it is to connect to from text into four bytes;
the server prints the address of a client, and `rdma_create` records that text
with the link.
-/

namespace Wjfs

/-! ## `sscanf` -/

/-- `isspace`, by the table of the kernel. -/
def isspace (c : UInt8) : Bool := 9 ≤ c && c ≤ 13 || c == 32 || c == 160

/-- The parts of a format: `%d`, and a character that must match. -/
inductive Directive where
  | int
  | char (c : UInt8)
deriving DecidableEq, Repr

/-- Whether a number begins here: a digit, or a minus sign and a digit. -/
def startsNumber : Bytes → Bool
  | 45 :: c :: _ => isdigit c
  | c :: _ => isdigit c
  | [] => false

/-- `vsscanf` for formats of these parts: the numbers that are stored. -/
def vsscanf : List Directive → Bytes → List CInt
  | [], _ => []
  | _ :: _, [] => []
  | .char x :: fmt, c :: str => if x = c then vsscanf fmt str else []
  | .int :: fmt, c :: str =>
      let str := (c :: str).dropWhile isspace
      if startsNumber str then
        let r := simpleStrtol str 10
        r.1 :: vsscanf fmt r.2
      else []

/-- `"%d.%d.%d.%d"` -/
def dottedQuad : List Directive :=
  [.int, .char 46, .int, .char 46, .int, .char 46, .int]

/-- `inet_addr`: its four variables have no value before `sscanf` stores one. -/
def inetAddr (ip : Bytes) : Except Fault CInt :=
  match vsscanf dottedQuad ip with
  | [a, b, c, d] => .ok (ofLeBytes ([a, b, c, d].map fun x => UInt8.ofBitVec (x.setWidth 8)))
  | _ => .error .uninitialised

/-! ## numbers -/

theorem skipHex_ten (cp : Bytes) : skipHex 10 cp = cp := by
  unfold skipHex
  split <;> simp

theorem isdigit_of_mem_decimal {n : Nat} {c : UInt8} (hc : c ∈ decimal n) : isdigit c = true := by
  obtain ⟨hlo, hhi⟩ := digit_of_mem_decimal hc
  simp [isdigit, hlo, hhi]

/-- A digit of a printed number, for `simple_strtoul`. -/
theorem digit_decimal {n : Nat} {c : UInt8} (hc : c ∈ decimal n) :
    isDigitIn 10 c = true ∧ ((digitValue c : Nat) : CInt) = c.toBitVec.signExtend 32 - 48 := by
  obtain ⟨d, hd, rfl⟩ := List.mem_map.mp hc
  have hlt : d < 10 := Numeral.lt_of_mem_render (by decide) hd
  interval_cases d <;> exact ⟨rfl, rfl⟩

/-- It is neither a blank nor a minus sign. -/
theorem not_space_of_mem_decimal {n : Nat} {c : UInt8} (hc : c ∈ decimal n) :
    isspace c = false ∧ c ≠ 45 := by
  obtain ⟨d, hd, rfl⟩ := List.mem_map.mp hc
  have hlt : d < 10 := Numeral.lt_of_mem_render (by decide) hd
  interval_cases d <;> exact ⟨rfl, by decide⟩

/-- `simple_strtoul` reads a printed number up to what is no digit. -/
theorem simpleStrtoul_decimal (n : Nat) {rest : Bytes}
    (hrest : ∀ c ∈ rest.head?, isDigitIn 10 c = false) :
    simpleStrtoul (decimal n ++ rest) 10 = ((n : CInt), rest) := by
  have hdigits : ∀ c ∈ decimal n, isDigitIn 10 c = true := fun c hc => (digit_decimal hc).1
  have hstop : rest.takeWhile (isDigitIn 10) = [] ∧ rest.dropWhile (isDigitIn 10) = rest := by
    cases rest with
    | nil => exact ⟨rfl, rfl⟩
    | cons c rest => simp [hrest c rfl]
  have hfold : (decimal n).foldl (fun (r : CInt) c => r * (10 : Nat) + digitValue c) 0 =
      string2int (decimal n) :=
    List.foldl_ext _ _ _ fun r c hc => by rw [(digit_decimal hc).2]; rfl
  simp only [simpleStrtoul, skipHex_ten, strtoulLoop_eq, Nat.reduceEqDiff, if_false]
  rw [List.takeWhile_append_of_pos hdigits, List.dropWhile_append_of_pos hdigits, hstop.1, hstop.2,
    List.append_nil, hfold, string2int_decimal]

theorem startsNumber_of_ne {c : UInt8} (hc : c ≠ 45) (str : Bytes) :
    startsNumber (c :: str) = isdigit c := by
  cases str <;> simp [startsNumber, hc]

theorem simpleStrtol_of_ne {c : UInt8} (hc : c ≠ 45) (str : Bytes) (base : Nat) :
    simpleStrtol (c :: str) base = simpleStrtoul (c :: str) base := by
  simp [simpleStrtol, hc]

/-- A `%d` reads a printed number. -/
theorem vsscanf_decimal (n : Nat) {rest : Bytes} (fmt : List Directive)
    (hrest : ∀ c ∈ rest.head?, isDigitIn 10 c = false) :
    vsscanf (.int :: fmt) (decimal n ++ rest) = (n : CInt) :: vsscanf fmt rest := by
  have hnum := simpleStrtoul_decimal n hrest
  cases hdec : decimal n with
  | nil => exact absurd hdec (decimal_ne_nil n)
  | cons c ds =>
      have hmem : c ∈ decimal n := hdec ▸ List.mem_cons_self
      obtain ⟨hspace, hminus⟩ := not_space_of_mem_decimal hmem
      rw [hdec] at hnum
      simp only [vsscanf, List.cons_append, List.dropWhile_cons, hspace, Bool.false_eq_true,
        if_false]
      rw [startsNumber_of_ne hminus, if_pos (isdigit_of_mem_decimal hmem),
        simpleStrtol_of_ne hminus, ← List.cons_append, hnum]

/-- A `%d` and the dot behind it. -/
theorem vsscanf_decimal_dot (n : Nat) (rest : Bytes) (fmt : List Directive) :
    vsscanf (.int :: .char 46 :: fmt) (decimal n ++ 46 :: rest) =
      (n : CInt) :: vsscanf fmt rest := by
  have hdot : ∀ c ∈ (46 :: rest).head?, isDigitIn 10 c = false := by
    rintro c ⟨⟩
    decide
  rw [vsscanf_decimal n _ hdot, vsscanf, if_pos rfl]

/-! ## addresses -/

/-- A byte is printed without a sign. -/
theorem fmtInt_and (x : CInt) : fmtInt (x &&& 0xFF) = decimal (x &&& 0xFF).toNat := by
  have hlt : (x &&& 0xFF).toNat ≤ 255 := by
    rw [BitVec.toNat_and]
    exact Nat.and_le_right
  have hmsb : (x &&& 0xFF).msb = false := by
    rw [BitVec.msb_eq_false_iff_two_mul_lt]
    omega
  rw [fmtInt, hmsb]
  rfl

/-- A byte of an address, stored into a `char`. -/
theorem byte_and (x : CInt) (k : Nat) :
    UInt8.ofBitVec ((x >>> k &&& 0xFF).setWidth 8) = UInt8.ofNat (x.toNat / 2 ^ k) := by
  have hmask : x.toNat >>> k &&& 255 = x.toNat / 2 ^ k % 2 ^ 8 := by
    rw [← Nat.shiftRight_eq_div_pow]
    exact Nat.and_two_pow_sub_one_eq_mod _ 8
  rw [← UInt8.toNat_inj, UInt8.toNat_ofBitVec, UInt8.toNat_ofNat', BitVec.toNat_setWidth,
    BitVec.toNat_and, BitVec.toNat_ushiftRight]
  exact (congrArg (· % 2 ^ 8) hmask).trans (Nat.mod_mod _ _)

/-- The four numbers that are read. -/
theorem vsscanf_inetNtoa (addr : CInt) : vsscanf dottedQuad (inetNtoa addr) =
    [addr &&& 0xFF, addr >>> 8 &&& 0xFF, addr >>> 16 &&& 0xFF, addr >>> 24 &&& 0xFF] := by
  have hend : ∀ c ∈ ([] : Bytes).head?, isDigitIn 10 c = false := by
    rintro c ⟨⟩
  have hlast := vsscanf_decimal (addr >>> 24 &&& 0xFF).toNat [] hend
  rw [List.append_nil] at hlast
  simp only [inetNtoa, dottedQuad, dot, fmtInt_and, List.append_assoc, List.cons_append,
    List.nil_append]
  rw [vsscanf_decimal_dot, vsscanf_decimal_dot, vsscanf_decimal_dot, hlast, vsscanf]
  simp only [BitVec.natCast_eq_ofNat, BitVec.ofNat_toNat, BitVec.setWidth_eq]

/-- **`inet_addr` reads back what `inet_ntoa` prints**, for every address. -/
theorem inetAddr_inetNtoa (addr : CInt) : inetAddr (inetNtoa addr) = .ok addr := by
  have hbytes : [addr &&& 0xFF, addr >>> 8 &&& 0xFF, addr >>> 16 &&& 0xFF,
      addr >>> 24 &&& 0xFF].map (fun x => UInt8.ofBitVec (x.setWidth 8)) = leBytes addr := by
    have hlow := byte_and addr 0
    rw [BitVec.ushiftRight_zero, Nat.pow_zero, Nat.div_one] at hlow
    simp only [List.map_cons, List.map_nil, leBytes, hlow, byte_and]
  simp only [inetAddr, vsscanf_inetNtoa]
  rw [hbytes, ofLeBytes_leBytes]

end Wjfs
