import Wjfs.Cells
import Wjfs.Delivery
import Wjfs.Reach

/-!
# Wjfs.Layout

The entries of the table as they lie in memory.

`struct reg_ino_mapp_table` has 52 bytes: an array of 16 for the name, four
`int`s, an array of 16 for the address and one more `int`.  `rdma_create` fills
an entry by two `strcpy`s, which do not know how long the arrays are, and five
assignments.  `LinkData.stores` lists these stores in the order of the source.

The model of the table cuts the name at the end of its array.  That is right in
the end, since the bytes behind go to `local_ino`, which is stored afterwards:
`TableAt.fill`, for every name that the parser lets through.  But such a name is
not terminated, and one of its bytes has been stored in a field that is not its
own; `entry_faithful_iff` says that names of at most 15 bytes are recorded as
they should be, and no others.
-/

namespace Wjfs

open Cells

/-! ## the structure -/

/-- The members of `struct reg_ino_mapp_table`. -/
inductive Field where
  | name | localIno | rdmaIno | localParentIno | rdmaParentIno | ip | used
deriving DecidableEq, Repr

namespace Field

/-- Where a member begins. -/
def offset : Field → Nat
  | name => 0
  | localIno => 16
  | rdmaIno => 20
  | localParentIno => 24
  | rdmaParentIno => 28
  | ip => 32
  | used => 48

/-- How many bytes it has. -/
def size : Field → Nat
  | name => 16
  | ip => 16
  | _ => 4

end Field

/-- `sizeof(struct reg_ino_mapp_table)`. -/
def entrySize : Nat := 52

theorem Field.offset_add_size_le (f : Field) : f.offset + f.size ≤ entrySize := by
  cases f <;> decide

/-- An `int` in memory, the least significant byte first. -/
def leBytes (x : CInt) : Bytes :=
  [x.toNat, x.toNat / 2 ^ 8, x.toNat / 2 ^ 16, x.toNat / 2 ^ 24].map UInt8.ofNat

/-- The `int` that such bytes are. -/
def ofLeBytes (bs : Bytes) : CInt := BitVec.ofNat 32 (bs.foldr (fun b n => b.toNat + 2 ^ 8 * n) 0)

@[simp] theorem length_leBytes (x : CInt) : (leBytes x).length = 4 := rfl

@[simp] theorem ofLeBytes_leBytes (x : CInt) : ofLeBytes (leBytes x) = x := by
  have hx := x.isLt
  refine BitVec.eq_of_toNat_eq ?_
  simp only [ofLeBytes, leBytes, List.map_cons, List.map_nil, List.foldr_cons, List.foldr_nil,
    BitVec.toNat_ofNat, UInt8.toNat_ofNat']
  omega

/-- The string in an array of `char`, if it is terminated there. -/
def arrayString (bs : Bytes) : Option Bytes :=
  if 0 ∈ bs then some (bs.takeWhile (· ≠ 0)) else none

/-- A `strcpy` into an array that is long enough. -/
theorem arrayString_strcpy {arr s : Bytes} (h0 : 0 ∉ s) (hlen : s.length < arr.length) :
    arrayString (Entry.strcpy arr s) = some s := by
  have hcopy : Entry.strcpy arr s = s ++ 0 :: (arr.drop (s.length + 1)).take
      (arr.length - s.length - 1) := by
    unfold Entry.strcpy
    rw [List.take_append, List.take_of_length_le (Nat.le_of_lt hlen), List.take_cons (by omega)]
  have hne : ∀ c ∈ s, decide (c ≠ 0) = true := fun c hc => by
    simpa using fun h : c = 0 => h0 (h ▸ hc)
  rw [hcopy, arrayString, if_pos (by simp), List.takeWhile_append_of_pos hne]
  simp

namespace Entry

/-- The bytes of a member. -/
def bytes (e : Entry) : Field → Bytes
  | .name => e.name
  | .localIno => leBytes e.localIno
  | .rdmaIno => leBytes e.rdmaIno
  | .localParentIno => leBytes e.localParentIno
  | .rdmaParentIno => leBytes e.rdmaParentIno
  | .ip => e.ip
  | .used => leBytes (if e.used then 1 else 0)

end Entry

/-- The bytes of a member of the structure at an address. -/
def member (m : Nat → UInt8) (a : Nat) (f : Field) : Bytes := read m (a + f.offset) f.size

@[simp] theorem length_member (m : Nat → UInt8) (a : Nat) (f : Field) :
    (member m a f).length = f.size := length_read ..

/-- An entry lies at an address. -/
def EntryAt (m : Nat → UInt8) (a : Nat) (e : Entry) : Prop :=
  ∀ f : Field, member m a f = e.bytes f

/-- The table lies at an address. -/
def TableAt (m : Nat → UInt8) (base : Nat) (t : Table) : Prop :=
  ∀ (j : Nat) (e : Entry), t.entries[j]? = some e → EntryAt m (base + entrySize * j) e

/-! ## the stores -/

/-- What `rdma_create` has to record of a link. -/
structure LinkData where
  name : Bytes
  localIno : CInt
  rdmaIno : CInt
  localParentIno : CInt
  rdmaParentIno : CInt
  ip : Bytes
deriving DecidableEq

namespace LinkData

variable {d : LinkData} {m : Nat → UInt8} {a b : Nat} {e : Entry} {f : Field} {bs : Bytes}

/-- The stores into the entry, each with the member it is for: `used` in the
loop, then the two `strcpy`s and the assignments between them. -/
def stores (d : LinkData) : List (Field × Bytes) :=
  [(.used, leBytes 1), (.name, d.name ++ [0]), (.localIno, leBytes d.localIno),
    (.rdmaIno, leBytes d.rdmaIno), (.localParentIno, leBytes d.localParentIno),
    (.rdmaParentIno, leBytes d.rdmaParentIno), (.ip, d.ip ++ [0])]

/-- A store into the entry at an address. -/
def place (a : Nat) (s : Field × Bytes) : Nat × Bytes := (a + s.1.offset, s.2)

/-- The memory after the stores. -/
def fill (d : LinkData) (m : Nat → UInt8) (a : Nat) : Nat → UInt8 :=
  run m (d.stores.map (place a))

/-- The entry in the model of the table. -/
def entry (d : LinkData) (e : Entry) : Entry :=
  e.fill d.name d.localIno d.rdmaIno d.localParentIno d.rdmaParentIno d.ip

/-- As long as the strings are at most this long, every store is inside the
entry. -/
def Fits (d : LinkData) : Prop := d.name.length ≤ 19 ∧ d.ip.length ≤ 15

theorem apart_place {s : Field × Bytes} (h : Apart f.offset f.size s.1.offset s.2.length) :
    Apart (a + f.offset) f.size (place a s).1 (place a s).2.length := by
  show Apart (a + f.offset) f.size (a + s.1.offset) s.2.length
  unfold Apart at *
  omega

/-- What a member holds in the end, from the store that is for it. -/
theorem read_fill (k : Nat) (hk : d.stores[k]? = some (f, bs))
    (hafter : ∀ s ∈ d.stores.drop (k + 1), Apart f.offset f.size s.1.offset s.2.length) :
    member (d.fill m a) a f =
      (bs ++ (member (run m ((d.stores.take k).map (place a))) a f).drop
        bs.length).take f.size := by
  obtain ⟨hlt, hget⟩ := List.getElem?_eq_some_iff.mp hk
  have hsplit : d.stores = d.stores.take k ++ (f, bs) :: d.stores.drop (k + 1) := by
    rw [← hget, List.cons_getElem_drop_succ, List.take_append_drop]
  rw [member, member, fill, hsplit, List.map_append, List.map_cons, ← hsplit]
  refine read_run_append fun s hs => ?_
  obtain ⟨s, hmem, rfl⟩ := List.mem_map.mp hs
  exact apart_place (hafter s hmem)

/-- A number is what was stored. -/
theorem read_fill_int (k : Nat) {x : CInt} (hk : d.stores[k]? = some (f, leBytes x))
    (hafter : ∀ s ∈ d.stores.drop (k + 1), Apart f.offset f.size s.1.offset s.2.length)
    (hsize : f.size = 4) : member (d.fill m a) a f = leBytes x := by
  rw [read_fill k hk hafter, hsize]
  exact List.take_left' (length_leBytes x)

/-- An array is what `strcpy` leaves. -/
theorem read_fill_strcpy (k : Nat) {s : Bytes} (hk : d.stores[k]? = some (f, s ++ [0]))
    (hbefore : ∀ s ∈ d.stores.take k, Apart f.offset f.size s.1.offset s.2.length)
    (hafter : ∀ s ∈ d.stores.drop (k + 1), Apart f.offset f.size s.1.offset s.2.length) :
    member (d.fill m a) a f =
      Entry.strcpy (member m a f) s := by
  have hold : member (run m ((d.stores.take k).map (place a))) a f =
      member m a f := by
    refine read_run fun s hs => ?_
    obtain ⟨s, hmem, rfl⟩ := List.mem_map.mp hs
    exact apart_place (hbefore s hmem)
  rw [read_fill k hk hafter, hold, Entry.strcpy, length_member, List.append_assoc,
    List.length_append]
  rfl

/-- **The stores fill the entry** as the model of the table says, for every name
that fits into a row of the parser. -/
theorem entryAt_fill (hd : d.Fits) (he : EntryAt m a e) : EntryAt (d.fill m a) a (d.entry e) := by
  obtain ⟨hname, hip⟩ := hd
  intro f
  have hold := he f
  cases f with
  | name =>
      rw [read_fill_strcpy 1 rfl ?_ ?_, hold]
      · rfl
      · simp [stores, Apart, Field.offset, Field.size]
      · simp [stores, Apart, Field.offset, Field.size]
  | ip =>
      rw [read_fill_strcpy 6 rfl ?_ ?_, hold]
      · rfl
      · simp [stores, Apart, Field.offset, Field.size]
        omega
      · simp [stores, Apart, Field.offset, Field.size]
  | localIno => exact read_fill_int 2 rfl (by simp [stores, Apart, Field.offset, Field.size]) rfl
  | rdmaIno => exact read_fill_int 3 rfl (by simp [stores, Apart, Field.offset, Field.size]) rfl
  | localParentIno =>
      exact read_fill_int 4 rfl (by simp [stores, Apart, Field.offset, Field.size]) rfl
  | rdmaParentIno =>
      exact read_fill_int 5 rfl (by simp [stores, Apart, Field.offset, Field.size]) rfl
  | used =>
      refine read_fill_int 0 rfl ?_ rfl
      simp [stores, Apart, Field.offset, Field.size]
      omega

/-- Other entries stay as they are. -/
theorem entryAt_fill_of_apart (hd : d.Fits) (hab : Apart b entrySize a entrySize)
    (he : EntryAt m b e) : EntryAt (d.fill m a) b e := by
  obtain ⟨hname, hip⟩ := hd
  intro f
  rw [← he f]
  have hf := f.offset_add_size_le
  have hlen : ∀ s ∈ d.stores, s.1.offset + s.2.length ≤ entrySize := by
    simp [stores, Field.offset, entrySize]
    omega
  refine read_run fun s hs => ?_
  obtain ⟨s, hmem, rfl⟩ := List.mem_map.mp hs
  have hs := hlen s hmem
  show Apart (b + f.offset) f.size (a + s.1.offset) s.2.length
  unfold Apart at *
  omega

/-- The stores keep the table as the model has it. -/
theorem tableAt_fill {base : Nat} {t t' : Table} (hd : d.Fits) (ht : TableAt m base t)
    (hins : t.insert d.entry = .ok t') :
    TableAt (d.fill m (base + entrySize * t.slot)) base t' := by
  intro j e he
  rw [(Table.entries_insert hins).2] at he
  by_cases hj : t.slot = j
  · subst hj
    rw [List.getElem?_modify_eq] at he
    obtain ⟨e₀, he₀, rfl⟩ := Option.map_eq_some_iff.mp he
    exact entryAt_fill hd (ht _ e₀ he₀)
  · rw [List.getElem?_modify_ne _ _ hj] at he
    refine entryAt_fill_of_apart hd ?_ (ht j e he)
    unfold Apart entrySize
    omega

/-! ## what is on record -/

/-- An entry in memory holds what it should: the two arrays hold the strings,
the members between them the numbers, and no store for one member went to
another one, or out of the entry. -/
structure Faithful (d : LinkData) (m : Nat → UInt8) (a : Nat) : Prop where
  name : arrayString (member m a .name) = some d.name
  ip : arrayString (member m a .ip) = some d.ip
  localIno : ofLeBytes (member m a .localIno) = d.localIno
  rdmaIno : ofLeBytes (member m a .rdmaIno) = d.rdmaIno
  localParentIno : ofLeBytes (member m a .localParentIno) = d.localParentIno
  rdmaParentIno : ofLeBytes (member m a .rdmaParentIno) = d.rdmaParentIno
  confined : ∀ s ∈ d.stores, s.2.length ≤ s.1.size

/-- An entry is faithful exactly if the name leaves room for the NUL. -/
theorem faithful_iff (hd : d.Fits) (hname : 0 ∉ d.name) (hip : 0 ∉ d.ip) (he : EntryAt m a e) :
    d.Faithful (d.fill m a) a ↔ d.name.length ≤ 15 := by
  have hfill := entryAt_fill hd he
  have hlen : ∀ f, (e.bytes f).length = f.size := fun f => by rw [← he f, length_member]
  constructor
  · intro hf
    have hstore := hf.confined (.name, d.name ++ [0]) (by simp [stores])
    simp only [List.length_append, List.length_singleton, Field.size] at hstore
    omega
  · intro hshort
    refine ⟨?_, ?_, ?_, ?_, ?_, ?_, ?_⟩
    · rw [hfill .name]
      exact arrayString_strcpy hname (by rw [show e.name.length = 16 from hlen .name]; omega)
    · rw [hfill .ip]
      have hip' := hd.2
      exact arrayString_strcpy hip (by rw [show e.ip.length = 16 from hlen .ip]; omega)
    · rw [hfill .localIno]
      exact ofLeBytes_leBytes _
    · rw [hfill .rdmaIno]
      exact ofLeBytes_leBytes _
    · rw [hfill .localParentIno]
      exact ofLeBytes_leBytes _
    · rw [hfill .rdmaParentIno]
      exact ofLeBytes_leBytes _
    · have hip' := hd.2
      simp [stores, Field.size]
      omega

end LinkData

/-! ## the address of the peer -/

/-- `"."` -/
def dot : Bytes := [46]

/-- `inet_ntoa`: the four bytes of an address in decimal, with dots between
them. -/
def inetNtoa (addr : CInt) : Bytes :=
  fmtInt (addr &&& 0xFF) ++ dot ++ fmtInt (addr >>> 8 &&& 0xFF) ++ dot ++
    fmtInt (addr >>> 16 &&& 0xFF) ++ dot ++ fmtInt (addr >>> 24 &&& 0xFF)

/-- A byte is printed with at most three digits, none of which is a NUL. -/
theorem fmtInt_byte (x : CInt) :
    (fmtInt (x &&& 0xFF)).length ≤ 3 ∧ 0 ∉ fmtInt (x &&& 0xFF) := by
  have hlt : (x &&& 0xFF).toNat ≤ 255 := by
    rw [BitVec.toNat_and]
    exact Nat.and_le_right
  have hmsb : (x &&& 0xFF).msb = false := by
    rw [BitVec.msb_eq_false_iff_two_mul_lt]
    omega
  rw [fmtInt, hmsb]
  simp only [Bool.false_eq_true, if_false]
  refine ⟨?_, fun h => by simpa using digit_of_mem_decimal h⟩
  rw [decimal, List.length_map]
  exact Numeral.length_render_le (by decide) (by decide) (by omega)

/-- It fits into the array, with its NUL. -/
theorem inetNtoa_fits (addr : CInt) : (inetNtoa addr).length ≤ 15 ∧ 0 ∉ inetNtoa addr := by
  obtain ⟨h0, hn0⟩ := fmtInt_byte addr
  obtain ⟨h1, hn1⟩ := fmtInt_byte (addr >>> 8)
  obtain ⟨h2, hn2⟩ := fmtInt_byte (addr >>> 16)
  obtain ⟨h3, hn3⟩ := fmtInt_byte (addr >>> 24)
  constructor
  · simp only [inetNtoa, dot, List.length_append, List.length_singleton]
    omega
  · simp only [inetNtoa, dot, List.mem_append, List.mem_singleton, hn0, hn1, hn2, hn3]
    decide

/-! ## create frames -/

namespace Host

variable {h h' g : Host} {env : Env} {c : Control} {new parent : Ptr} {buf : Bytes}
  {m : Nat → UInt8} {base : Nat}

/-- What `rdma_create` has to record of the link that it made. -/
def linkData? (g : Host) (new parent : Ptr) (c : Control) (ip : Bytes) : Option LinkData :=
  match g.dName? new, g.inodeOf? new, g.inodeOf? parent with
  | some name, some i, some p => some ⟨name, i.iIno, c.ino, p.iIno, c.inoParent, ip⟩
  | _, _, _ => none

/-- **Which links are recorded as they are**: for every state of a host, every
create frame that is handled and every address, the stores into the entry keep
the table as the model has it, and the entry holds the link's name and numbers
and the address, every store staying in its member, exactly if the name has at
most 15 bytes. -/
theorem entry_faithful_iff (hr : Reach h) (hparse : parseControl buf = .ok c)
    (hmake : h.makeLink env c = .ok (g, new, parent)) (addr : CInt)
    (hok : h.rdmaCreate env buf (inetNtoa addr) = .ok h') (hm : TableAt m base h.table) :
    ∃ d, g.linkData? new parent c (inetNtoa addr) = some d ∧ d.name = c.name ∧
      TableAt (d.fill m (base + entrySize * h.table.slot)) base h'.table ∧
      (d.Faithful (d.fill m (base + entrySize * h.table.slot)) (base + entrySize * h.table.slot) ↔
        c.name.length ≤ 15) := by
  obtain ⟨dir, hml⟩ := makeLink_spec hr.sane hmake
  obtain ⟨i, hi, hnum⟩ := hml.inode
  obtain ⟨p, hp, hpar⟩ := hml.parentNumber
  obtain ⟨hlen, hnul⟩ := inetNtoa_fits addr
  rw [hml.rdmaCreate_eq hparse hmake, ← hnum, ← hpar] at hok
  obtain ⟨t, hins, hok⟩ := bind_eq_ok hok
  cases hok
  have hfits : LinkData.Fits ⟨c.name, i.iIno, c.ino, p.iIno, c.inoParent, inetNtoa addr⟩ :=
    ⟨(fitsRow_of_parseControl hparse).1.1, hlen⟩
  -- the entry that is filled lies in memory
  have hslot := (Table.entries_insert hins).1
  rw [← h.table.length_eq] at hslot
  have he := hm _ _ (List.getElem?_eq_getElem hslot)
  refine ⟨⟨c.name, i.iIno, c.ino, p.iIno, c.inoParent, inetNtoa addr⟩, ?_, rfl,
    LinkData.tableAt_fill hfits hm hins, LinkData.faithful_iff hfits hml.nul hnul he⟩
  simp only [linkData?, hml.name, hi, hp]

end Host

/-- Memory that is all zero holds the table of a fresh mount. -/
theorem tableAt_zero (base : Nat) : TableAt (fun _ => 0) base freshMount.table := by
  intro j e he
  have hblank : e = Entry.blank := by
    have hmem := List.mem_of_getElem? he
    obtain ⟨e₀, he₀, rfl⟩ := List.mem_map.mp hmem
    rw [List.eq_of_mem_replicate he₀]
    rfl
  subst hblank
  intro f
  cases f <;> rfl

/-- `127.0.0.1`, as it lies in `sin_addr`. -/
def loopback : CInt := 0x0100007F

/-- The short name of a directory is recorded. -/
theorem entry_faithful_iff_announceD : ∃ d : LinkData, d.name = [100] ∧
    d.Faithful (d.fill (fun _ => 0) (0 + entrySize * freshMount.table.slot))
      (0 + entrySize * freshMount.table.slot) := by
  have hmake : (freshMount.makeLink (.server true) announceD.control).toOption.map
      (fun _ => ()) = some () := by decide
  have hok : (freshMount.rdmaCreate (.server true) announceD.buf (inetNtoa loopback)).toOption.map
      (fun _ => ()) = some () := by decide
  obtain ⟨⟨g, new, parent⟩, hmake, -⟩ := exists_of_toOption_map hmake
  obtain ⟨h', hok, -⟩ := exists_of_toOption_map hok
  obtain ⟨d, -, hname, -, hiff⟩ := Host.entry_faithful_iff (.mount ..) announceD.parse hmake
    loopback hok (tableAt_zero 0)
  exact ⟨d, hname, hiff.mpr (by decide)⟩

/-- `"CR 7 aaaaaaaaaaaaaaaa 1 / 0000"`, with sixteen letters. -/
def longFrame : Bytes := wjfsClientCreate 7 (List.replicate 16 97) 1 Host.rootName false

/-- What it says. -/
def longControl : Control := ⟨7, List.replicate 16 97, 1, Host.rootName, 0⟩

/-- What there is to record of it. -/
def longLink : LinkData := ⟨List.replicate 16 97, 2, 7, 1, 1, inetNtoa loopback⟩

/-- **A name of 16 bytes is not terminated**: the frame is handled, the NUL goes
to `local_ino` and is overwritten there. -/
theorem long_name_spills : ∃ g new parent h', parseControl longFrame = .ok longControl ∧
    freshMount.makeLink (.server true) longControl = .ok (g, new, parent) ∧
    freshMount.rdmaCreate (.server true) longFrame (inetNtoa loopback) = .ok h' ∧
    g.linkData? new parent longControl (inetNtoa loopback) = some longLink ∧
    (Field.name, longLink.name ++ [0]) ∈ longLink.stores ∧
    Field.name.size < (longLink.name ++ [0]).length ∧
    arrayString (member (longLink.fill (fun _ => 0) 0) 0 .name) = none := by
  have hmake : (freshMount.makeLink (.server true) longControl).toOption.map
      (fun x => x.1.linkData? x.2.1 x.2.2 longControl (inetNtoa loopback)) =
      some (some longLink) := by decide
  have hok : (freshMount.rdmaCreate (.server true) longFrame (inetNtoa loopback)).toOption.map
      (fun _ => ()) = some () := by decide
  obtain ⟨⟨g, new, parent⟩, hmake, hdata⟩ := exists_of_toOption_map hmake
  obtain ⟨h', hok, -⟩ := exists_of_toOption_map hok
  exact ⟨g, new, parent, h', by decide, hmake, hok, hdata, by decide,
    by decide, by decide⟩

end Wjfs
