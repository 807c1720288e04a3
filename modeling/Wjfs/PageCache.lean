import Wjfs.FileOps

/-!
# Wjfs.PageCache

`put_file_message` on the page cache it works in.

`Wjfs.Content` gives the function as one update of an inode.  Here it is the
sequence of calls that the C makes: `simple_write_begin` finds the first page
of the file, or gets a new one whose bytes nothing has set; the message is
copied into it; `simple_write_end` marks it up to date and lets the file grow.
All pages of all files lie in one memory, each at an address of its own, and
the radix tree of a file leads to the addresses of its pages.

`page?_putFileMessage` says what the sequence does to the first page and that
no other page of any file changes; `readable_spliced` what can then be read from
the first page, whichever path the calls took.
-/

namespace Wjfs

/-- `struct page` with the bytes of the page.  `host` is `mapping->host`, the
inode whose file it belongs to. -/
structure CachePage where
  host : Ptr
  index : Nat
  uptodate : Bool
  data : Page

namespace CachePage

/-- The page with other bytes. -/
def mapData (c : CachePage) (f : Page → Page) : CachePage := { c with data := f c.data }

/-- The page, up to date. -/
def mark (c : CachePage) : CachePage := { c with uptodate := true }

theorem mark_of_uptodate {c : CachePage} (h : c.uptodate = true) : c.mark = c := by
  unfold mark
  rw [← h]

end CachePage

/-- The page cache: the pages by address, where the radix tree of each inode
leads, and the sizes of the files.  A page that a tree leads to is the page
with that inode and index. -/
structure PageCache where
  pages : Ptr → CachePage
  find : Ptr → Nat → Option Ptr
  iSize : Ptr → Nat
  owned : ∀ inode index p, find inode index = some p →
    (pages p).host = inode ∧ (pages p).index = index

namespace PageCache

variable (pc : PageCache)

/-! ## the primitives -/

/-- Rewrite the bytes of the page at an address. -/
def modifyData (p : Ptr) (f : Page → Page) : PageCache where
  pages q := if q = p then (pc.pages p).mapData f else pc.pages q
  find := pc.find
  iSize := pc.iSize
  owned inode index q h := by
    have hq := pc.owned inode index q h
    by_cases hp : q = p
    · subst hp
      rwa [if_pos rfl]
    · rwa [if_neg hp]

/-- `memset(kaddr + start, 0, stop - start)`. -/
def memset (p : Ptr) (start stop : Nat) : PageCache :=
  pc.modifyData p fun data k => if start ≤ k ∧ k < stop then 0 else data k

/-- `__copy_from_user_inatomic(kaddr + offset, bytes, ..)` that copies
everything. -/
def copyIn (p : Ptr) (offset : Nat) (bytes : Bytes) : PageCache :=
  pc.modifyData p fun data k =>
    if offset ≤ k then (bytes[k - offset]?).getD (data k) else data k

/-- `SetPageUptodate`. -/
def setPageUptodate (p : Ptr) : PageCache where
  pages q := if q = p then (pc.pages p).mark else pc.pages q
  find := pc.find
  iSize := pc.iSize
  owned inode index q h := by
    have hq := pc.owned inode index q h
    by_cases hp : q = p
    · subst hp
      rwa [if_pos rfl]
    · rwa [if_neg hp]

/-- `i_size_write`. -/
def iSizeWrite (inode : Ptr) (size : Nat) : PageCache :=
  { pc with iSize := fun i => if i = inode then size else pc.iSize i }

/-- A page that `__page_cache_alloc` returns: it belongs to no file, and its
bytes are what its last user left. -/
structure NewPage where
  addr : Ptr
  data : Page
  free : ∀ inode index, pc.find inode index ≠ some addr

variable {pc} in
/-- `add_to_page_cache_lru` of a new page, which is not up to date. -/
def addToPageCache (new : pc.NewPage) (inode : Ptr) (index : Nat) : PageCache where
  pages q := if q = new.addr then ⟨inode, index, false, new.data⟩ else pc.pages q
  find i j := if i = inode ∧ j = index then some new.addr else pc.find i j
  iSize := pc.iSize
  owned i j q h := by
    split at h
    · next hij =>
        rw [if_pos (Option.some.inj h).symm]
        exact ⟨hij.1.symm, hij.2.symm⟩
    · have hq : q ≠ new.addr := fun heq => new.free i j (heq ▸ h)
      rw [if_neg hq]
      exact pc.owned i j q h

/-! ## the calls of `fs/libfs.c` -/

/-- `grab_cache_page_write_begin`: the page of the file, or the new one. -/
def grabCachePageWriteBegin (inode : Ptr) (index : Nat) (new : pc.NewPage) : PageCache × Ptr :=
  match pc.find inode index with
  | some p => (pc, p)
  | none => (addToPageCache new inode index, new.addr)

/-- `simple_prepare_write`: the part of a page not up to date that the write
leaves out is cleared. -/
def simplePrepareWrite (p : Ptr) (start stop : Nat) : PageCache :=
  if !(pc.pages p).uptodate then
    if stop - start ≠ pageSize then (pc.memset p 0 start).memset p stop pageSize else pc
  else pc

/-- `simple_write_begin`. -/
def simpleWriteBegin (inode : Ptr) (pos len : Nat) (new : pc.NewPage) : PageCache × Ptr :=
  let r := pc.grabCachePageWriteBegin inode (pos / pageSize) new
  (r.1.simplePrepareWrite r.2 (pos % pageSize) (pos % pageSize + len), r.2)

/-- `simple_commit_write`. -/
def simpleCommitWrite (p : Ptr) (stop : Nat) : PageCache :=
  let inode := (pc.pages p).host
  let pos := (pc.pages p).index * pageSize + stop
  let pc := if !(pc.pages p).uptodate then pc.setPageUptodate p else pc
  if pc.iSize inode < pos then pc.iSizeWrite inode pos else pc

/-- `simple_write_end`. -/
def simpleWriteEnd (pos len copied : Nat) (p : Ptr) : PageCache :=
  let start := pos % pageSize
  let pc := if copied < len then pc.memset p (start + copied) (start + len) else pc
  pc.simpleCommitWrite p (start + copied)

/-- `strlen`. -/
def strlen (s : Bytes) : Nat := (s.takeWhile (· ≠ 0)).length

/-- `put_file_message`; `message` is the memory from the pointer on. -/
def putFileMessage (inode : Ptr) (message : Bytes) (new : pc.NewPage) : PageCache :=
  let bytes := strlen message
  let r := pc.simpleWriteBegin inode 0 bytes new
  (r.1.copyIn r.2 0 (message.take bytes)).simpleWriteEnd 0 bytes bytes r.2

/-! ## what can be read -/

/-- A page of a file. -/
def page? (inode : Ptr) (index : Nat) : Option CachePage := (pc.find inode index).map pc.pages

/-- A page as a reader sees it: `simple_readpage` fills one that is missing or
not up to date with zeros. -/
def readable : Option CachePage → Page
  | some c => if c.uptodate then c.data else fun _ => 0
  | none => fun _ => 0

/-- A file, as its reader sees it. -/
def file (inode : Ptr) : Paged.File UInt8 :=
  ⟨fun n => some (readable (pc.page? inode n)), pc.iSize inode⟩

/-- What a file holds. -/
def contents (inode : Ptr) : Bytes := Paged.contents pageSize 0 (pc.file inode)

/-! ## what the calls do -/

section Laws

/-- The bytes of a page up to `stop`, and zeros after that. -/
def clearFrom (stop : Nat) (data : Page) : Page :=
  fun k => if stop ≤ k ∧ k < pageSize then 0 else data k

/-- A page as `simple_prepare_write` leaves it for a write of its first `stop`
bytes. -/
def prepared (c : CachePage) (stop : Nat) : CachePage :=
  if c.uptodate then c else c.mapData (clearFrom stop)

/-- What a call does that writes to one page only. -/
structure OnPage (pc pc' : PageCache) (p : Ptr) (c : CachePage) : Prop where
  find : pc'.find = pc.find
  pages : ∀ q, pc'.pages q = if q = p then c else pc.pages q

theorem OnPage.trans {pc₁ pc₂ pc₃ : PageCache} {p : Ptr} {c c' : CachePage}
    (h : OnPage pc₁ pc₂ p c) (h' : OnPage pc₂ pc₃ p c') : OnPage pc₁ pc₃ p c' where
  find := h'.find.trans h.find
  pages q := by
    rw [h'.pages, h.pages]
    grind

theorem OnPage.refl (p : Ptr) : OnPage pc pc p (pc.pages p) where
  find := rfl
  pages q := by grind

variable {pc} in
/-- A page has one place in one file, so no other page of any file changes. -/
theorem OnPage.page? {pc' : PageCache} {p : Ptr} {c : CachePage} (h : OnPage pc pc' p c)
    {inode : Ptr} {index : Nat} (hp : pc.find inode index = some p) (i : Ptr) (j : Nat) :
    pc'.page? i j = if i = inode ∧ j = index then some c else pc.page? i j := by
  unfold PageCache.page?
  rw [h.find]
  by_cases hij : i = inode ∧ j = index
  · obtain ⟨rfl, rfl⟩ := hij
    rw [if_pos ⟨rfl, rfl⟩, hp, Option.map_some, h.pages, if_pos rfl]
  · rw [if_neg hij]
    refine Option.map_congr fun q hq => ?_
    have hne : q ≠ p := fun heq => by
      obtain ⟨hi, hj⟩ := pc.owned i j q hq
      obtain ⟨hi', hj'⟩ := pc.owned inode index p hp
      rw [heq] at hi hj
      exact hij ⟨hi.symm.trans hi', hj.symm.trans hj'⟩
    rw [h.pages, if_neg hne]

theorem onPage_modifyData (p : Ptr) (f : Page → Page) :
    OnPage pc (pc.modifyData p f) p ((pc.pages p).mapData f) := ⟨rfl, fun _ => rfl⟩

theorem onPage_copyIn (p : Ptr) (bytes : Bytes) : OnPage pc (pc.copyIn p 0 bytes) p
    ((pc.pages p).mapData fun data k => (bytes[k]?).getD (data k)) := by
  have h := onPage_modifyData pc p fun data k => (bytes[k]?).getD (data k)
  simpa [copyIn] using h

/-- `simple_prepare_write`. -/
theorem onPage_simplePrepareWrite (p : Ptr) (stop : Nat) :
    OnPage pc (pc.simplePrepareWrite p 0 stop) p (prepared (pc.pages p) stop) := by
  unfold simplePrepareWrite prepared
  by_cases hu : (pc.pages p).uptodate = true
  · rw [if_neg (by simp [hu]), if_pos hu]
    exact OnPage.refl pc p
  rw [if_pos (by simpa using hu), if_neg hu]
  by_cases hstop : stop = pageSize
  · -- a whole page is written: nothing is cleared, and nothing would be left to clear
    have hnone : clearFrom stop (pc.pages p).data = (pc.pages p).data :=
      funext fun k => if_neg (by omega)
    rw [if_neg (by omega), CachePage.mapData, hnone]
    exact OnPage.refl pc p
  · rw [if_pos (by omega)]
    have hzero := onPage_modifyData pc p fun data k => if 0 ≤ k ∧ k < 0 then 0 else data k
    have hrest := onPage_modifyData (pc.memset p 0 0) p (clearFrom stop)
    have hsame : (pc.memset p 0 0).pages p = pc.pages p := by
      simp [memset, modifyData, CachePage.mapData]
    rw [hsame] at hrest
    exact hzero.trans hrest

/-- `simple_commit_write`. -/
theorem onPage_simpleCommitWrite (p : Ptr) (stop : Nat) :
    OnPage pc (pc.simpleCommitWrite p stop) p (pc.pages p).mark := by
  have hmark : OnPage pc (if !(pc.pages p).uptodate then pc.setPageUptodate p else pc) p
      (pc.pages p).mark := by
    by_cases hu : (pc.pages p).uptodate = true
    · rw [if_neg (by simp [hu]), CachePage.mark_of_uptodate hu]
      exact OnPage.refl pc p
    · rw [if_pos (by simpa using hu)]
      exact ⟨rfl, fun q => rfl⟩
  unfold simpleCommitWrite
  generalize (if !(pc.pages p).uptodate then pc.setPageUptodate p else pc) = m at hmark
  dsimp only
  split
  · exact ⟨hmark.find, hmark.pages⟩
  · exact hmark

theorem iSize_simplePrepareWrite (p : Ptr) (stop : Nat) :
    (pc.simplePrepareWrite p 0 stop).iSize = pc.iSize := by
  unfold simplePrepareWrite
  split
  · split <;> rfl
  · rfl

/-- The file of the page grows to the end of what was written. -/
theorem iSize_simpleCommitWrite (p : Ptr) (stop : Nat) (i : Ptr) :
    (pc.simpleCommitWrite p stop).iSize i =
      if i = (pc.pages p).host then max (pc.iSize i) ((pc.pages p).index * pageSize + stop)
      else pc.iSize i := by
  have hmark : (if !(pc.pages p).uptodate then pc.setPageUptodate p else pc).iSize = pc.iSize := by
    split <;> rfl
  unfold simpleCommitWrite
  dsimp only
  rw [hmark]
  by_cases hi : i = (pc.pages p).host
  · subst hi
    split
    · next hlt => simp [iSizeWrite, Nat.max_eq_right (Nat.le_of_lt hlt)]
    · next hlt => rw [hmark, if_pos rfl, Nat.max_eq_left (Nat.le_of_not_lt hlt)]
  · rw [if_neg hi]
    split
    · rw [iSizeWrite, hmark]
      exact if_neg hi
    · rw [hmark]

/-- The page that was grabbed is the file's, and the same file can be read. -/
theorem grab_spec (inode : Ptr) (index : Nat) (new : pc.NewPage) :
    (pc.grabCachePageWriteBegin inode index new).1.find inode index =
        some (pc.grabCachePageWriteBegin inode index new).2 ∧
      (pc.grabCachePageWriteBegin inode index new).1.iSize = pc.iSize ∧
      (∀ i j, ¬ (i = inode ∧ j = index) →
        (pc.grabCachePageWriteBegin inode index new).1.page? i j = pc.page? i j) ∧
      readable ((pc.grabCachePageWriteBegin inode index new).1.page? inode index) =
        readable (pc.page? inode index) := by
  unfold grabCachePageWriteBegin
  cases hf : pc.find inode index with
  | some p => exact ⟨hf, rfl, fun _ _ _ => rfl, rfl⟩
  | none =>
      refine ⟨if_pos ⟨rfl, rfl⟩, rfl, fun i j hij => ?_, ?_⟩
      · have hfind : (addToPageCache new inode index).find i j = pc.find i j := if_neg hij
        unfold page?
        rw [hfind]
        refine Option.map_congr fun q hq => ?_
        have hne : q ≠ new.addr := fun heq => new.free i j (heq ▸ hq)
        exact if_neg hne
      · simp [page?, hf, addToPageCache, readable]

theorem strlen_cons_nul {m : Bytes} (hm : 0 ∉ m) (rest : Bytes) :
    strlen (m ++ 0 :: rest) = m.length := by
  unfold strlen
  rw [List.takeWhile_append_of_pos (by grind)]
  simp

section Put

variable (inode : Ptr) (new : pc.NewPage) {m : Bytes} (rest : Bytes)

/-- The page that the message is stored to, as the calls leave it. -/
def spliced (c : CachePage) (m : Bytes) : CachePage :=
  ((prepared c m.length).mapData fun data k => (m[k]?).getD (data k)).mark

/-- The whole sequence, after the page was grabbed. -/
theorem onPage_putFileMessage (hm : 0 ∉ m) :
    OnPage (pc.grabCachePageWriteBegin inode 0 new).1
        (pc.putFileMessage inode (m ++ 0 :: rest) new)
        (pc.grabCachePageWriteBegin inode 0 new).2
        (spliced ((pc.grabCachePageWriteBegin inode 0 new).1.pages
          (pc.grabCachePageWriteBegin inode 0 new).2) m) ∧
      ∀ i, (pc.putFileMessage inode (m ++ 0 :: rest) new).iSize i =
        if i = inode then max (pc.iSize i) m.length else pc.iSize i := by
  obtain ⟨hfind, hsize, -, -⟩ := pc.grab_spec inode 0 new
  unfold putFileMessage simpleWriteBegin simpleWriteEnd
  simp only [strlen_cons_nul hm, Nat.zero_div, Nat.zero_mod, Nat.zero_add, Nat.lt_irrefl,
    if_false, List.take_left]
  generalize pc.grabCachePageWriteBegin inode 0 new = r at hfind hsize
  have hprep := r.1.onPage_simplePrepareWrite r.2 m.length
  have hsize₁ := r.1.iSize_simplePrepareWrite r.2 m.length
  generalize r.1.simplePrepareWrite r.2 0 m.length = pc₁ at hprep hsize₁
  have hpage₁ : pc₁.pages r.2 = prepared (r.1.pages r.2) m.length := by
    rw [hprep.pages, if_pos rfl]
  have hcopy := pc₁.onPage_copyIn r.2 m
  rw [hpage₁] at hcopy
  have hsize₂ : (pc₁.copyIn r.2 0 m).iSize = pc.iSize := hsize₁.trans hsize
  have hhost : ((pc₁.copyIn r.2 0 m).pages r.2).host = inode ∧
      ((pc₁.copyIn r.2 0 m).pages r.2).index = 0 := by
    refine (pc₁.copyIn r.2 0 m).owned inode 0 r.2 ?_
    rw [hcopy.find, hprep.find, hfind]
  have hcommit := (pc₁.copyIn r.2 0 m).onPage_simpleCommitWrite r.2 m.length
  rw [hcopy.pages, if_pos rfl] at hcommit
  refine ⟨(hprep.trans hcopy).trans hcommit, fun i => ?_⟩
  rw [iSize_simpleCommitWrite, hhost.1, hhost.2, hsize₂, Nat.zero_mul, Nat.zero_add]

/-- The page that can be read afterwards. -/
theorem readable_spliced (c : CachePage) (m : Bytes) {k : Nat} (hk : k < pageSize) :
    readable (some (spliced c m)) k = (m[k]?).getD (readable (some c) k) := by
  unfold spliced prepared
  by_cases hu : c.uptodate = true
  · simp [readable, CachePage.mark, CachePage.mapData, hu]
  · by_cases hkm : k < m.length
    · simp [readable, CachePage.mark, CachePage.mapData, hu, hkm]
    · simp [readable, CachePage.mark, CachePage.mapData, hu, clearFrom, hk, Nat.le_of_not_lt hkm]

/-- The pages afterwards. -/
theorem page?_putFileMessage (hm : 0 ∉ m) : ∃ c, readable (some c) = readable (pc.page? inode 0) ∧
    ∀ i j, (pc.putFileMessage inode (m ++ 0 :: rest) new).page? i j =
      if i = inode ∧ j = 0 then some (spliced c m) else pc.page? i j := by
  obtain ⟨hfind, -, hother, hread⟩ :=
    pc.grab_spec inode 0 new
  obtain ⟨hon, -⟩ := pc.onPage_putFileMessage inode new rest hm
  refine ⟨(pc.grabCachePageWriteBegin inode 0 new).1.pages
    (pc.grabCachePageWriteBegin inode 0 new).2, ?_, fun i j => ?_⟩
  · rw [← hread, page?, hfind, Option.map_some]
  · rw [hon.page? hfind]
    split
    · rfl
    · next hij => exact hother i j hij

/-- Byte by byte. -/
theorem get_file_putFileMessage (hm : 0 ∉ m) (hlen : m.length ≤ pageSize) (n : Nat) :
    Paged.get pageSize 0 ((pc.putFileMessage inode (m ++ 0 :: rest) new).file inode) n =
      (m[n]?).getD (Paged.get pageSize 0 (pc.file inode) n) := by
  obtain ⟨c, hread, hpage⟩ :=
    pc.page?_putFileMessage inode new rest hm
  simp only [Paged.get, file, hpage, Option.elim_some]
  by_cases hn : n / pageSize = 0
  · have hlt : n < pageSize := Nat.lt_of_div_eq_zero pageSize_pos hn
    rw [if_pos ⟨trivial, hn⟩, hn, Nat.mod_eq_of_lt hlt, readable_spliced c m hlt, hread]
  · have hge : m.length ≤ n := by
      by_contra hlt
      exact hn (Nat.div_eq_of_lt (by omega))
    rw [if_neg (by simp [hn]), List.getElem?_eq_none hge, Option.getD_none]

theorem iSize_putFileMessage (hm : 0 ∉ m) (i : Ptr) :
    (pc.putFileMessage inode (m ++ 0 :: rest) new).iSize i =
      if i = inode then max (pc.iSize i) m.length else pc.iSize i :=
  (pc.onPage_putFileMessage inode new rest hm).2 i

end Put

end Laws

/-! ## the two models of a file -/

/-- An inode of `Wjfs.Inode` that reads as the file in the page cache. -/
structure Reads (pc : PageCache) (inode : Ptr) (i : Inode) : Prop where
  size : i.iSize = pc.iSize inode
  get : ∀ n, Paged.get pageSize 0 i.file n = Paged.get pageSize 0 (pc.file inode) n

/-- The sequence of calls does what `Wjfs.Content` makes of
`put_file_message`. -/
theorem Reads.putFileMessage {pc : PageCache} {inode : Ptr} {i : Inode} (h : pc.Reads inode i)
    (new : pc.NewPage) {m : Bytes} (rest : Bytes) (hm : 0 ∉ m) (hlen : m.length ≤ pageSize) :
    (pc.putFileMessage inode (m ++ 0 :: rest) new).Reads inode (Wjfs.putFileMessage m i) where
  size := by
    rw [iSize_putFileMessage pc inode new rest hm, if_pos rfl, ← h.size]
    rfl
  get n := by
    rw [get_putFileMessage i hlen, get_file_putFileMessage pc inode new rest hm hlen, h.get]

/-- **`put_file_message` splices at offset 0 and touches nothing else.**
Whatever the file was, and whatever the bytes of the page it gets if the first
one is missing: the file then holds the message and what it held behind the
length of the message, no other page of any file has changed, and no other
file has another size. -/
theorem putFileMessage_splices (pc : PageCache) (inode : Ptr) (new : pc.NewPage) {m : Bytes}
    (rest : Bytes) (hm : 0 ∉ m) (hlen : m.length ≤ 1023) :
    (pc.putFileMessage inode (m ++ 0 :: rest) new).contents inode =
        m ++ (pc.contents inode).drop m.length ∧
      (pc.putFileMessage inode (m ++ 0 :: rest) new).iSize inode =
        max (pc.contents inode).length m.length ∧
      (∀ i j, ¬ (i = inode ∧ j = 0) →
        (pc.putFileMessage inode (m ++ 0 :: rest) new).page? i j = pc.page? i j) ∧
      ∀ i, i ≠ inode →
        (pc.putFileMessage inode (m ++ 0 :: rest) new).iSize i = pc.iSize i ∧
          (pc.putFileMessage inode (m ++ 0 :: rest) new).contents i = pc.contents i := by
  have hsize := pc.iSize_putFileMessage inode new rest hm
  have hpages : ∀ i j, ¬ (i = inode ∧ j = 0) →
      (pc.putFileMessage inode (m ++ 0 :: rest) new).page? i j = pc.page? i j := by
    obtain ⟨c, -, hpage⟩ :=
      pc.page?_putFileMessage inode new rest hm
    intro i j hij
    rw [hpage, if_neg hij]
  refine ⟨?_, ?_, hpages, fun i hi => ?_⟩
  · have hpage : m.length ≤ pageSize := Nat.le_trans hlen (by decide)
    refine Paged.contents_splice ?_ (pc.get_file_putFileMessage inode new rest hm hpage)
    exact (hsize inode).trans (if_pos rfl)
  · rw [hsize, if_pos rfl, contents, Paged.length_contents]
    rfl
  · have hi' := hsize i
    rw [if_neg hi] at hi'
    refine ⟨hi', Paged.contents_congr hi' fun n => ?_⟩
    simp only [Paged.get, file, hpages i _ fun h => hi h.1]

end PageCache

/-- One empty file without pages. -/
def emptyCache : PageCache where
  pages _ := ⟨0, 0, false, fun _ => 0⟩
  find _ _ := none
  iSize _ := 0
  owned _ _ _ h := by cases h

/-- A message into an empty file, through a page full of old bytes. -/
theorem putFileMessage_splices_empty :
    (emptyCache.putFileMessage 0 [104, 105, 0] ⟨7, fun _ => 255, by simp [emptyCache]⟩).contents 0 =
      [104, 105] := by
  have h := (PageCache.putFileMessage_splices emptyCache 0
    ⟨7, fun _ => 255, by simp [emptyCache]⟩ (m := [104, 105]) [] (by decide) (by decide)).1
  simpa [PageCache.contents, Paged.contents, PageCache.file, emptyCache] using h

end Wjfs
