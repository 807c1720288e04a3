import Wjfs.FileOps
import Wjfs.Frame.Grammar
import Wjfs.Frame.Roundtrip
import Wjfs.Host.Laws
import Wjfs.Server

/-!
# Wjfs.RemoteWrite

Writing through a link.

The payload of a write passes through `message[1024]` and `buf[1024]` on the
writing host and through one 20-byte row on the owner, which keeps neither
carriage returns nor line feeds.  `delivers_iff` says exactly which writes
come through unchanged.
-/

namespace Wjfs

open Pieces

/-! ## the payload on the wire -/

section Wire

variable {ino inoParent : CInt} {name nameParent message : Bytes}

/-- The part of a write request in front of the payload. -/
def writeHeader (ino : CInt) (name : Bytes) (inoParent : CInt) (nameParent : Bytes) : Bytes :=
  sprintfBlank [tagWR, fmtInt ino, name, fmtInt inoParent, nameParent]

theorem writeRequest_eq : writeRequest ino name inoParent nameParent message =
    writeHeader ino name inoParent nameParent ++ 32 :: message := by
  simp [writeRequest, writeHeader, sprintfBlank]

theorem length_writeHeader (ino : CInt) (name : Bytes) (inoParent : CInt) (nameParent : Bytes) :
    (writeHeader ino name inoParent nameParent).length ≤
    28 + name.length + nameParent.length := by
  have h₁ := length_fmtInt_le ino
  have h₂ := length_fmtInt_le inoParent
  simp only [writeHeader, sprintfBlank, tagWR, List.length_append, List.length_cons,
    List.length_nil]
  omega

/-- The header has four separators, and those of the two names. -/
theorem countP_writeHeader : (writeHeader ino name inoParent nameParent).countP isSep =
    4 + name.countP isSep + nameParent.countP isSep := by
  have hzero : ∀ i, (fmtInt i).countP isSep = 0 := fun i =>
    List.countP_eq_zero.mpr fun c hc => by simp [isSep_fmtInt i c hc]
  have htag : tagWR.countP isSep = 0 := by decide
  have hblank : isSep 32 = true := rfl
  simp only [writeHeader, sprintfBlank, List.countP_append, List.countP_cons_of_pos hblank,
    hzero, htag]
  omega

/-- Clean conversions and a blank stand in front of the rest as pieces. -/
theorem pieces_header {ps : List Bytes} (hne : ps ≠ [])
    (hs : ∀ s ∈ ps, ∀ c ∈ s, isSep c = false) (m : Bytes) :
    pieces isSep (sprintfBlank ps ++ 32 :: m) = ps ++ pieces isSep m ∧
      after isSep ps.length (sprintfBlank ps ++ 32 :: m) = some m := by
  induction ps with
  | nil => exact absurd rfl hne
  | cons s ps ih =>
      have h0 := hs s List.mem_cons_self
      cases ps with
      | nil =>
          have hafter : after isSep 1 (s ++ 32 :: m) = after isSep 0 m :=
            after_append_cons h0 rfl 0 m
          exact ⟨pieces_append_cons h0 rfl m, hafter.trans (after_zero m)⟩
      | cons t ts =>
          obtain ⟨ihp, iha⟩ := ih (by simp) fun u hu => hs u (List.mem_cons_of_mem _ hu)
          have happ : sprintfBlank (s :: t :: ts) ++ 32 :: m =
              s ++ 32 :: (sprintfBlank (t :: ts) ++ 32 :: m) := by simp [sprintfBlank]
          rw [happ, pieces_append_cons h0 rfl, ihp]
          exact ⟨rfl, (after_append_cons h0 rfl _ _).trans iha⟩

/-- With clean names the five rows are the conversions of the header and the
rest is the payload. -/
theorem pieces_writeRequest (ino inoParent : CInt) (message : Bytes)
    (hn : ∀ c ∈ name, isSep c = false) (hp : ∀ c ∈ nameParent, isSep c = false) :
    pieces isSep (writeRequest ino name inoParent nameParent message) =
        [tagWR, fmtInt ino, name, fmtInt inoParent, nameParent] ++ pieces isSep message ∧
      after isSep 5 (writeRequest ino name inoParent nameParent message) = some message := by
  rw [writeRequest_eq]
  refine pieces_header (by simp) ?_ message
  have htag : ∀ c ∈ tagWR, isSep c = false := by simp [tagWR, isSep]
  simp only [List.mem_cons, List.not_mem_nil, or_false, forall_eq_or_imp, forall_eq]
  exact ⟨htag, isSep_fmtInt ino, hn, isSep_fmtInt inoParent, hp⟩

/-- Behind a clean header the owner reads the number that was printed. -/
theorem ino_of_parseWrite (hn : ∀ c ∈ name, isSep c = false)
    (hp : ∀ c ∈ nameParent, isSep c = false) {req : WriteReq}
    (hparse : parseWrite (writeRequest ino name inoParent nameParent message) = .ok req) :
    req.ino = string2int (fmtInt ino) := by
  obtain ⟨rest, hrows⟩ := exists_writeRows hparse
  obtain ⟨r0, r1, r2, r3, r4, hr, -, -, hparse'⟩ := parseWrite_of_writeRows hrows
  rw [(pieces_writeRequest _ _ _ hn hp).1] at hr
  obtain ⟨-, h1, -⟩ : tagWR = r0 ∧ fmtInt ino = r1 ∧ _ := by simpa using hr
  rw [← Except.ok.inj (hparse'.symm.trans hparse), h1]

/-- The payload comes out as it went in. -/
def PayloadSurvives (frame message : Bytes) : Prop :=
  ∃ req, parseWrite frame = .ok req ∧ req.message = message

theorem filter_keptByte_eq_self {s : Bytes} : s.filter keptByte = s ↔ 13 ∉ s ∧ 10 ∉ s := by
  rw [List.filter_eq_self]
  constructor
  · intro h
    exact ⟨fun h13 => absurd (h _ h13) (by decide), fun h10 => absurd (h _ h10) (by decide)⟩
  · rintro ⟨h13, h10⟩ c hc
    have hne : c ≠ 13 ∧ c ≠ 10 := ⟨fun h => h13 (h ▸ hc), fun h => h10 (h ▸ hc)⟩
    simp [keptByte, hne]

theorem payloadSurvives_of (hn : FitsRow name) (hp : FitsRow nameParent)
    (hlen : 1 ≤ message.length ∧ message.length ≤ 19) (hcr : 13 ∉ message ∧ 10 ∉ message) :
    PayloadSurvives (writeRequest ino name inoParent nameParent message) message := by
  obtain ⟨hln, hsn⟩ := fitsRow_iff.mp hn
  obtain ⟨hlp, hsp⟩ := fitsRow_iff.mp hp
  obtain ⟨hpieces, hafter⟩ :=
    pieces_writeRequest ino inoParent message hsn hsp
  have hrows : WriteRows (writeRequest ino name inoParent nameParent message) message := by
    refine ⟨by simp [hpieces], ?_, hafter, by rintro rfl; simp at hlen, ?_⟩
    · have h₁ := length_fmtInt_le ino
      have h₂ := length_fmtInt_le inoParent
      simp only [hpieces, List.take_append_of_le_length, List.length_cons, List.length_nil,
        le_refl, List.take_succ_cons, List.take_zero, List.mem_cons, List.not_mem_nil, or_false,
        forall_eq_or_imp, forall_eq]
      exact ⟨by decide, by omega, by omega, by omega, by omega⟩
    · rw [filter_keptByte_eq_self.mpr hcr]
      exact hlen.2
  obtain ⟨r0, r1, r2, r3, r4, -, -, -, hparse⟩ := parseWrite_of_writeRows hrows
  exact ⟨_, hparse, filter_keptByte_eq_self.mpr hcr⟩

/-- A payload that survives was handed over alone: whatever the second loop
read was the payload, since it keeps the blank in front of it. -/
theorem rest_eq_of_filter {header rest pre : Bytes}
    (happ : header ++ 32 :: message = pre ++ rest) (hkept : rest.filter keptByte = message) :
    rest = message := by
  have hclean : message.filter keptByte = message := by rw [← hkept, List.filter_filter]; simp
  have hle : message.length ≤ rest.length := by rw [← hkept]; exact List.length_filter_le _ _
  obtain hlt | heq := Nat.lt_or_eq_of_le hle
  · -- a longer rest would hold the blank as well
    exfalso
    have hframe : 32 :: message <:+ pre ++ rest := happ ▸ List.suffix_append _ _
    have hsuffix : 32 :: message <:+ rest :=
      List.suffix_of_suffix_length_le hframe (List.suffix_append _ _) (by simpa using hlt)
    obtain ⟨t, ht⟩ := hsuffix
    have hblank : keptByte 32 = true := by decide
    have hcount := congrArg List.length hkept
    rw [← ht, List.filter_append, List.filter_cons_of_pos hblank, hclean] at hcount
    simp only [List.length_append, List.length_cons] at hcount
    omega
  · have hframe : message <:+ pre ++ rest :=
      happ ▸ (List.suffix_cons _ _).trans (List.suffix_append _ _)
    have hsuffix : message <:+ rest :=
      List.suffix_of_suffix_length_le hframe (List.suffix_append _ _) hle
    exact (hsuffix.eq_of_length heq).symm

/-- **Payload of a write request**: it survives the owner's parser exactly
when it is 1 to 19 bytes long without carriage return or line feed and both
names are clean. -/
theorem payloadSurvives_iff :
    PayloadSurvives (writeRequest ino name inoParent nameParent message) message ↔
      (1 ≤ message.length ∧ message.length ≤ 19) ∧ (13 ∉ message ∧ 10 ∉ message) ∧
        FitsRow name ∧ FitsRow nameParent := by
  constructor
  · rintro ⟨req, hparse, hmsg⟩
    obtain ⟨rest, hrows⟩ := exists_writeRows hparse
    obtain ⟨r0, r1, r2, r3, r4, -, -, -, hparse'⟩ := parseWrite_of_writeRows hrows
    obtain ⟨-, hfit, hafter, hne, hpay⟩ := hrows
    have hkept : rest.filter keptByte = message := by
      rw [← hmsg, ← Except.ok.inj (hparse'.symm.trans hparse)]
    obtain ⟨pre, happ, hcount⟩ := exists_append_of_after hafter
    rw [writeRequest_eq] at happ
    obtain rfl := rest_eq_of_filter happ hkept
    -- what is left in front are the header and its blank: five separators
    have hpre : pre = writeHeader ino name inoParent nameParent ++ [32] := by
      rw [← List.append_left_inj rest, ← happ]
      simp
    rw [hpre, List.countP_append, countP_writeHeader] at hcount
    have hblank : List.countP isSep [32] = 1 := by decide
    have hn : ∀ c ∈ name, isSep c = false := fun c hc => by
      simpa using List.countP_eq_zero.mp (show name.countP isSep = 0 by omega) c hc
    have hp : ∀ c ∈ nameParent, isSep c = false := fun c hc => by
      simpa using List.countP_eq_zero.mp (show nameParent.countP isSep = 0 by omega) c hc
    have hpieces := (pieces_writeRequest ino inoParent rest hn hp).1
    have hln := hfit name (by simp [hpieces])
    have hlp := hfit nameParent (by simp [hpieces])
    rw [hkept] at hpay
    exact ⟨⟨List.length_pos_iff.mpr hne, hpay⟩, filter_keptByte_eq_self.mp hkept,
      fitsRow_iff.mpr ⟨by omega, hn⟩, fitsRow_iff.mpr ⟨by omega, hp⟩⟩
  · rintro ⟨hlen, hcr, hn, hp⟩
    exact payloadSurvives_of hn hp hlen hcr

end Wire

/-! ## a write through a link -/

namespace Host

variable {env : Env} {h : Host} {dentry : Ptr} {buf : Bytes} {ppos : Nat}

/-- A write through a link is delivered: no array overflows on the way, the
request on the wire carries the first `ret` bytes of the user's buffer, and
these are what the owner hands to `put_file_message`. -/
def Delivers (env : Env) (h : Host) (dentry : Ptr) (buf : Bytes) (ppos : Nat) : Prop :=
  ∃ o frame, h.wjfsWrite env dentry buf ppos = .ok o ∧ o.wire = some frame ∧
    h.wjfsClientWrite dentry (buf.take o.ret) = .ok frame ∧
    PayloadSurvives frame (buf.take o.ret)

/-- A write through a link, taken apart. -/
theorem wjfsWrite_link_eq_ok_iff (hlink : h.isMyFile dentry = .ok false) {o : WriteOutcome} :
    h.wjfsWrite env dentry buf ppos = .ok o ↔
      ∃ message wire, copyMessage buf = .ok message ∧
        h.sendWrite env dentry message = .ok wire ∧ o = ⟨h, message.length, ppos, wire⟩ := by
  unfold wjfsWrite
  simp only [hlink, bind, Except.bind, Bool.false_eq_true, if_false]
  cases copyMessage buf with
  | error e => simp
  | ok message =>
      simp only [Except.ok.injEq, exists_and_left, exists_eq_left']
      cases h.sendWrite env dentry message with
      | error e => simp
      | ok wire =>
          simp only [Except.ok.injEq, exists_eq_left']
          exact eq_comm

/-- The request is sent if the peer is there and it fits `buf[1024]`. -/
theorem sendWrite_eq_some_iff {message frame : Bytes} :
    h.sendWrite env dentry message = .ok (some frame) ↔
      h.wjfsClientWrite dentry message = .ok frame ∧ env.connects = true ∧
        frame.length < bufSize := by
  unfold sendWrite
  cases h.wjfsClientWrite dentry message with
  | error e => simp [bind, Except.bind]
  | ok f =>
      simp only [bind, Except.bind, Except.ok.injEq]
      split
      · next hc => simp_all
      · next hc =>
          split
          · next hlen => grind
          · next hlen => grind

section Fields

variable {ino inoParent : CInt} {name nameParent : Bytes}
  (hfields : h.frameFields dentry = .ok (ino, name, inoParent, nameParent))

include hfields

theorem wjfsClientWrite_eq (message : Bytes) : h.wjfsClientWrite dentry message =
    .ok (writeRequest (h.table.remote ino inoParent).1 name (h.table.remote ino inoParent).2
      nameParent message) := by
  simp [wjfsClientWrite, hfields, bind, Except.bind]

/-- A short clean payload behind clean names is delivered. -/
theorem delivers_of (hlink : h.isMyFile dentry = .ok false) (hnul : 0 ∉ buf)
    (hconn : env.connects = true) (hlen : 1 ≤ buf.length ∧ buf.length ≤ 19)
    (hcr : 13 ∉ buf ∧ 10 ∉ buf) (hn : FitsRow name) (hp : FitsRow nameParent) :
    Delivers env h dentry buf ppos := by
  have hclient := wjfsClientWrite_eq hfields buf
  have hsend := sendWrite_eq_some_iff.mpr ⟨hclient, hconn, by
    rw [writeRequest_eq, List.length_append, List.length_cons, bufSize]
    have := length_writeHeader (h.table.remote ino inoParent).1 name
      (h.table.remote ino inoParent).2 nameParent
    have := hn.1
    have := hp.1
    omega⟩
  refine ⟨⟨h, buf.length, ppos, _⟩, _,
    (wjfsWrite_link_eq_ok_iff hlink).mpr ⟨buf, _, ?_, hsend, rfl⟩, rfl, ?_, ?_⟩
  · exact (copyMessage_eq_ok_iff hnul).mpr ⟨rfl, by rw [bufSize]; omega⟩
  · rw [List.take_length]
    exact hclient
  · rw [List.take_length]
    exact payloadSurvives_of hn hp hlen hcr

/-- **Payload of a remote write**: for every link, the user's bytes without
NUL arrive as they are, and as many as the call returns, exactly when there
are 1 to 19 of them, none is a carriage return or a line feed, the names of
the link and of its parent fit a row, and the peer is there. -/
theorem delivers_iff (hlink : h.isMyFile dentry = .ok false) (hnul : 0 ∉ buf) :
    Delivers env h dentry buf ppos ↔
      env.connects = true ∧ (1 ≤ buf.length ∧ buf.length ≤ 19) ∧ (13 ∉ buf ∧ 10 ∉ buf) ∧
        FitsRow name ∧ FitsRow nameParent := by
  constructor
  · rintro ⟨o, frame, hw, hwire, hframe, hsurv⟩
    obtain ⟨message, wire, hcopy, hsend, rfl⟩ := (wjfsWrite_link_eq_ok_iff hlink).mp hw
    obtain ⟨rfl, hlen⟩ := (copyMessage_eq_ok_iff hnul).mp hcopy
    simp only [List.take_length] at hwire hframe hsurv
    rw [hwire] at hsend
    rw [wjfsClientWrite_eq hfields] at hframe
    obtain rfl := Except.ok.inj hframe
    exact ⟨(sendWrite_eq_some_iff.mp hsend).2.1, payloadSurvives_iff.mp hsurv⟩
  · rintro ⟨hconn, hlen, hcr, hn, hp⟩
    exact delivers_of hfields hlink hnul hconn hlen hcr hn hp

end Fields

end Host

/-- A fresh mount after `"CR 7 x 1 / 0000"`: the link `x` is the dentry at
address 2. -/
def linkedX : Except Fault Host :=
  (Host.mounted 0 0o755 0 Table.initial).rdmaCreate (Env.server true) createX []

/-- `"hi"` written through the link arrives. -/
theorem delivers_iff_hi :
    ∃ h, linkedX = .ok h ∧ h.Delivers (Env.server true) 2 [104, 105] 0 := by
  have hlink : linkedX.toOption.map (·.isMyFile 2) = some (.ok false) := by decide
  have hfields : linkedX.toOption.map (·.frameFields 2) =
      some (.ok (2, [120], 1, Host.rootName)) := by decide
  obtain ⟨h, hh, hmine⟩ := exists_of_toOption_map hlink
  rw [hh] at hfields
  exact ⟨h, hh, (Host.delivers_iff (Option.some.inj hfields) hmine (by decide)).mpr
    ⟨rfl, by decide, by decide, by decide, by decide⟩⟩

/-- Of `"hi\n"` written through the link, three bytes by the value returned,
the owner sees two. -/
theorem newline_is_lost :
    linkedX.toOption.map (·.isMyFile 2) = some (.ok false) ∧
      (linkedX >>= fun h => h.wjfsWrite (Env.server true) 2 [104, 105, 10] 0).toOption.map
          (fun o => (o.ret, o.wire.map fun frame => (parseWrite frame).map (·.message))) =
        some (3, some (.ok [104, 105])) := by
  decide +kernel

/-! ## a sequence of writes -/

/-- The owner handles what a write put on the wire. -/
def Host.handleWrite (owner : Host) : Option Bytes → Except Fault Host
  | none => .ok owner
  | some frame => owner.rdmaWrite frame

/-- Writes through one open file of `h`, one after the other; each request is
handled by `owner`.  The last two are the owner's state and `*ppos`. -/
def Host.remoteWrites (env : Env) (h : Host) (link : Ptr) :
    List Bytes → Host → Nat → Except Fault (Host × Nat)
  | [], owner, ppos => .ok (owner, ppos)
  | w :: ws, owner, ppos => do
      let o ← h.wjfsWrite env link w ppos
      let owner ← owner.handleWrite o.wire
      h.remoteWrites env link ws owner o.ppos

/-- Writes through one open file of the owner itself. -/
def Host.localWrites (env : Env) (file : Ptr) :
    List Bytes → Host → Nat → Except Fault (Host × Nat)
  | [], owner, ppos => .ok (owner, ppos)
  | w :: ws, owner, ppos => do
      let o ← owner.wjfsWrite env file w ppos
      localWrites env file ws o.host o.ppos

namespace Host

variable {env : Env} {h owner : Host} {link file i : Ptr} {ws : List Bytes}

/-- The writes through the link and those on the owner's file both go through,
leave the file with the same contents and `*ppos` at the same value. -/
def SameEffect (env : Env) (h : Host) (link : Ptr) (owner : Host) (file : Ptr)
    (ws : List Bytes) : Prop :=
  ∃ i r l, owner.dInode? file = some i ∧ h.remoteWrites env link ws owner 0 = .ok r ∧
    localWrites env file ws owner 0 = .ok l ∧
    (r.1.inodes i).contents = (l.1.inodes i).contents ∧ r.2 = l.2

/-- The requests of a link find the inode `i` on the owner. -/
def Reaches (h : Host) (link : Ptr) (owner : Host) (i : Ptr) : Prop :=
  ∀ w frame req, h.wjfsClientWrite link w = .ok frame → parseWrite frame = .ok req →
    ∃ d, owner.findDentryByIno owner.root req.ino = some d ∧ d.dInode = some i

/-- `*ppos` stays where it was. -/
theorem ppos_remoteWrites (hlink : h.isMyFile link = .ok false) {ppos : Nat} {r : Host × Nat}
    (hr : h.remoteWrites env link ws owner ppos = .ok r) : r.2 = ppos := by
  induction ws generalizing owner with
  | nil => rw [← Except.ok.inj hr]
  | cons w ws ih =>
      obtain ⟨o, ho, hr⟩ := bind_eq_ok hr
      obtain ⟨owner', -, hr⟩ := bind_eq_ok hr
      obtain ⟨message, wire, -, -, rfl⟩ := (wjfsWrite_link_eq_ok_iff hlink).mp ho
      exact ih hr

/-- A write to a file of the host's own. -/
theorem wjfsWrite_mine (hmine : owner.isMyFile file = .ok true)
    (hi : owner.dInode? file = some i) (w : Bytes) (ppos : Nat) :
    owner.wjfsWrite env file w ppos =
      .ok ⟨owner.setInode i (·.genericFileAioWrite w ppos), w.length, ppos + w.length, none⟩ := by
  simp [wjfsWrite, hmine, hi, bind, Except.bind]

/-- `*ppos` moves by what was written. -/
theorem ppos_localWrites (hmine : owner.isMyFile file = .ok true)
    (hi : owner.dInode? file = some i) {ppos : Nat} {l : Host × Nat}
    (hl : localWrites env file ws owner ppos = .ok l) : l.2 = ppos + ws.flatten.length := by
  induction ws generalizing owner ppos with
  | nil => rw [← Except.ok.inj hl]; rfl
  | cons w ws ih =>
      obtain ⟨o, ho, hl⟩ := bind_eq_ok hl
      rw [wjfsWrite_mine hmine hi] at ho
      obtain rfl := Except.ok.inj ho
      have hmine' : (owner.setInode i (·.genericFileAioWrite w ppos)).isMyFile file = .ok true :=
        (isMyFile_setInode rfl).trans hmine
      have hpos : l.2 = ppos + w.length + ws.flatten.length := ih hmine' hi hl
      rw [hpos, List.flatten_cons, List.length_append, Nat.add_assoc]

/-- At the start of the file, `put_file_message` and a local write store the
same. -/
theorem contents_putFileMessage (n : Inode) {w : Bytes} (hne : w ≠ [])
    (hlen : w.length ≤ pageSize) :
    (putFileMessage w n).contents = (n.genericFileAioWrite w 0).contents := by
  apply Paged.contents_congr
  · have := iSize_genericFileAioWrite n w 0
    rw [if_neg hne, Nat.zero_add] at this
    exact this.symm
  · intro k
    rw [get_putFileMessage n hlen, get_genericFileAioWrite]
    simp

/-- **A sequence of writes through a link**: for every link, every file of the
owner and every sequence of non-empty writes, the effect is that of the same
sequence on the file itself exactly when nothing is written, since `*ppos`
never moves.  Of a single write that is delivered to the file the contents
at least are right. -/
theorem sameEffect_iff (hlink : h.isMyFile link = .ok false)
    (hmine : owner.isMyFile file = .ok true)
    (hws : ∀ w ∈ ws, (1 ≤ w.length ∧ w.length ≤ 19) ∧ 0 ∉ w ∧ 13 ∉ w ∧ 10 ∉ w) :
    (SameEffect env h link owner file ws ↔ ws = []) ∧
      ∀ w i, ws = [w] → owner.dInode? file = some i → h.Reaches link owner i →
        h.Delivers env link w 0 →
        ∃ r l, h.remoteWrites env link ws owner 0 = .ok r ∧
          localWrites env file ws owner 0 = .ok l ∧
          (r.1.inodes i).contents = (l.1.inodes i).contents := by
  refine ⟨⟨?_, ?_⟩, ?_⟩
  · rintro ⟨i, r, l, hi, hr, hl, -, hpos⟩
    rw [ppos_remoteWrites hlink hr, ppos_localWrites hmine hi hl] at hpos
    cases ws with
    | nil => rfl
    | cons w ws =>
        have := (hws w List.mem_cons_self).1.1
        rw [List.flatten_cons, List.length_append] at hpos
        omega
  · rintro rfl
    obtain ⟨i, hi⟩ := exists_dInode_of_isMyFile hmine
    exact ⟨i, (owner, 0), (owner, 0), hi, rfl, rfl, rfl, rfl⟩
  · rintro w i rfl hi hreach ⟨o, frame, hw, hwire, hframe, req, hparse, hmsg⟩
    obtain ⟨⟨hpos, hlen⟩, hnul, -⟩ := hws w List.mem_cons_self
    obtain ⟨message, wire, hcopy, -, rfl⟩ := (wjfsWrite_link_eq_ok_iff hlink).mp hw
    obtain ⟨rfl, -⟩ := (copyMessage_eq_ok_iff hnul).mp hcopy
    obtain ⟨d, hd, hdi⟩ := hreach _ _ _ hframe hparse
    rw [List.take_length] at hmsg
    have hhandle : owner.handleWrite wire = .ok (owner.setInode i (putFileMessage message)) := by
      rw [show wire = some frame from hwire]
      simp [handleWrite, rdmaWrite, hparse, hd, hdi, hmsg, bind, Except.bind]
    refine ⟨(owner.setInode i (putFileMessage message), 0),
      (owner.setInode i (·.genericFileAioWrite message 0), 0 + message.length), ?_, ?_, ?_⟩
    · simp only [remoteWrites, hw, bind, Except.bind, hhandle]
    · simp only [localWrites, wjfsWrite_mine hmine hi, bind, Except.bind]
    · have hne : message ≠ [] := List.length_pos_iff.mp hpos
      simpa [setInode] using contents_putFileMessage (owner.inodes i) hne
        (show message.length ≤ 4096 by omega)

end Host

/-- A fresh mount after `"CR 2 f 1 / 0000"`: the link `f` stands for the file
number 2 of the peer. -/
def linkedF : Except Fault Host :=
  (Host.mounted 0 0o755 0 Table.initial).rdmaCreate (Env.server true)
    (wjfsClientCreate 2 [102] 1 Host.rootName false) []

/-- One write of `"ab"` leaves the contents right and `*ppos` wrong. -/
theorem sameEffect_iff_ab :
    ∃ h r l, linkedF = .ok h ∧
      h.remoteWrites (Env.server true) 2 [[97, 98]] (holding []) 0 = .ok r ∧
      Host.localWrites (Env.server true) 2 [[97, 98]] (holding []) 0 = .ok l ∧
      (r.1.inodes 3).contents = (l.1.inodes 3).contents ∧
      ¬ h.SameEffect (Env.server true) 2 (holding []) 2 [[97, 98]] := by
  have hlink : linkedF.toOption.map (·.isMyFile 2) = some (.ok false) := by decide
  have hfields : linkedF.toOption.map (·.frameFields 2) =
      some (.ok (2, [102], 1, Host.rootName)) := by decide
  have hremote : linkedF.toOption.map (·.table.remote 2 1) = some (2, 1) := by decide
  obtain ⟨h, hh, hmine⟩ := exists_of_toOption_map hlink
  rw [hh] at hfields hremote
  have hfields : h.frameFields 2 = .ok (2, [102], 1, Host.rootName) := Option.some.inj hfields
  have hremote : h.table.remote 2 1 = (2, 1) := Option.some.inj hremote
  have hreach : h.Reaches 2 (holding []) 3 := by
    intro w frame req hframe hparse
    rw [Host.wjfsClientWrite_eq hfields, hremote] at hframe
    obtain rfl := Except.ok.inj hframe
    rw [ino_of_parseWrite (by simp [isSep]) (by simp [Host.rootName, isSep]) hparse]
    have hfind : ((holding []).findDentryByIno (holding []).root (string2int (fmtInt 2))).map
        (·.dInode) = some (some 3) := by decide +kernel
    obtain ⟨d, hd, hi⟩ := Option.map_eq_some_iff.mp hfind
    exact ⟨d, hd, hi⟩
  have hdel : h.Delivers (Env.server true) 2 [97, 98] 0 :=
    Host.delivers_of hfields hmine (by decide) rfl (by decide) (by decide) (by decide) (by decide)
  obtain ⟨hiff, hone⟩ : (h.SameEffect (Env.server true) 2 (holding []) 2 [[97, 98]] ↔
      ([[97, 98]] : List Bytes) = []) ∧ _ :=
    Host.sameEffect_iff hmine (by decide +kernel) (by decide)
  obtain ⟨r, l, hr, hl, hc⟩ := hone [97, 98] 3 rfl (by decide) hreach hdel
  exact ⟨h, r, l, hh, hr, hl, hc, fun hs => absurd (hiff.mp hs) (by decide)⟩

/-- Of the two writes `"ab"` and `"cd"` through the link the file keeps
`"cd"`, where on the file itself they leave `"abcd"`; `*ppos` ends at 0 and
at 4. -/
theorem second_write_overwrites :
    (linkedF >>= fun h => h.remoteWrites (Env.server true) 2 [[97, 98], [99, 100]]
        (holding []) 0).toOption.map (fun r => ((r.1.inodes 3).contents, r.2)) =
      some ([99, 100], 0) ∧
    (Host.localWrites (Env.server true) 2 [[97, 98], [99, 100]] (holding []) 0).toOption.map
        (fun l => ((l.1.inodes 3).contents, l.2)) =
      some ([97, 98, 99, 100], 4) := by
  decide +kernel

end Wjfs
