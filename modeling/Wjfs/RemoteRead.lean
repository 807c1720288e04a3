import Wjfs.RemoteWrite
import Wjfs.Turns

/-!
# Wjfs.RemoteRead

Reading through a link.

The remote branch of `wjfs_read` fetches the whole file with every call and
knows neither `len` nor `*ppos`: whether a call reports the bytes or the end
of the file is decided by a static counter that all readers of the host
share.  `agreesWithLocal_iff` compares a read through a link with one on the
owner's file, `undisturbed_iff` a reader among others with the same reader
alone.
-/

namespace Wjfs

namespace Host

section Branches

variable {env : Env} {h : Host} {peer : Bytes → Except Fault Bytes} {link file i : Ptr}

/-- What a fetch leaves in `message[1024]` ends inside it. -/
theorem length_fetch {m : Bytes} (hm : h.fetch env peer link = .ok m) : m.length < bufSize := by
  obtain ⟨frame, -, hm⟩ := bind_eq_ok hm
  split at hm
  · obtain ⟨reply, -, hm⟩ := bind_eq_ok hm
    exact (cString_eq_ok_iff.mp hm).2.1
  · rw [← Except.ok.inj hm]
    decide

/-- A read through a link, taken apart. -/
theorem wjfsRead_link_eq_ok_iff (hlink : h.isMyFile link = .ok false) {k : CInt}
    {mem : Nat → UInt8} {len ppos : Nat} {o : ReadOutcome} :
    h.wjfsRead env peer k link mem len ppos = .ok o ↔
      ∃ m, h.fetch env peer link = .ok m ∧
        o = { host := h
              mem := fun j => if j < bufSize then (m[j]?).getD 0 else mem j
              stored := bufSize
              ret := if k.getLsbD 0 then m.length else 0
              ppos := ppos
              k := k + 1 } := by
  unfold wjfsRead
  simp only [hlink, bind, Except.bind, Bool.false_eq_true, if_false]
  cases h.fetch env peer link with
  | error e => simp
  | ok m =>
      simp only [Except.ok.injEq, exists_eq_left']
      exact eq_comm

/-- A read of a file of the host's own. -/
theorem wjfsRead_mine (hmine : h.isMyFile file = .ok true) (hi : h.dInode? file = some i)
    (env : Env) (peer : Bytes → Except Fault Bytes) (k : CInt) (mem : Nat → UInt8)
    (len ppos : Nat) :
    ∃ o, h.wjfsRead env peer k file mem len ppos = .ok o ∧
      (∀ j, o.mem j = ((((h.inodes i).contents.drop ppos).take len)[j]?).getD (mem j)) ∧
      o.ret = (((h.inodes i).contents.drop ppos).take len).length ∧
      o.ppos = ppos + (((h.inodes i).contents.drop ppos).take len).length := by
  rw [← bytes_genericFileAioRead]
  unfold wjfsRead
  simp only [hmine, hi, bind, Except.bind, if_true]
  exact ⟨_, rfl, fun _ => rfl, rfl, rfl⟩

end Branches

/-! ## a read through a link and one on the file -/

section Local

variable {env : Env} {h owner : Host} {stale : Stale} {link file i : Ptr} {k : CInt}
  {mem : Nat → UInt8} {len ppos : Nat}

/-- The read through the link leaves the user's memory, the value returned and
`*ppos` as a read of the owner's file does, and stores at most `len` bytes.
The owner's own counter `k'` plays no part there. -/
def AgreesWithLocal (env : Env) (h : Host) (link : Ptr) (owner : Host) (stale : Stale)
    (file : Ptr) (k : CInt) (mem : Nat → UInt8) (len ppos : Nat) : Prop :=
  ∃ r, h.wjfsRead env (owner.rdmaRead stale) k link mem len ppos = .ok r ∧ r.stored ≤ len ∧
    ∀ peer k', ∃ l, owner.wjfsRead env peer k' file mem len ppos = .ok l ∧
      r.mem = l.mem ∧ r.ret = l.ret ∧ r.ppos = l.ppos

/-- **A remote read and a local one**: for every link, every file of the
owner, every offset and every length, they agree exactly when there is nothing
left to read at the offset, the length is at least 1024, the call reports the
end of the file (the counter is even or the reply empty), and the user's
memory already holds what the call stores. -/
theorem agreesWithLocal_iff (hlink : h.isMyFile link = .ok false)
    (hmine : owner.isMyFile file = .ok true) (hi : owner.dInode? file = some i) :
    AgreesWithLocal env h link owner stale file k mem len ppos ↔
      ∃ m, h.fetch env (owner.rdmaRead stale) link = .ok m ∧ bufSize ≤ len ∧
        (owner.inodes i).contents.length ≤ ppos ∧ (k.getLsbD 0 = false ∨ m = []) ∧
        ∀ j < bufSize, mem j = (m[j]?).getD 0 := by
  have hlocal : ∀ (peer : Bytes → Except Fault Bytes) (k' : CInt), _ := fun peer k' =>
    wjfsRead_mine hmine hi env peer k' mem len ppos
  constructor
  · rintro ⟨r, hr, hstored, hagree⟩
    obtain ⟨m, hm, rfl⟩ := (wjfsRead_link_eq_ok_iff hlink).mp hr
    obtain ⟨l, hl, hmem, hret, hpos⟩ := hagree (fun _ => .ok []) 0
    obtain ⟨l', hl', hmem', hret', hpos'⟩ := hlocal (fun _ => .ok []) 0
    obtain rfl := Except.ok.inj (hl.symm.trans hl')
    simp only at hstored hret hpos
    have hnone : ((owner.inodes i).contents.drop ppos).take len = [] :=
      List.eq_nil_of_length_eq_zero (by omega)
    have hlen : bufSize = 1024 := rfl
    have hend : (owner.inodes i).contents.length ≤ ppos := by
      rw [List.take_eq_nil_iff, List.drop_eq_nil_iff] at hnone
      omega
    rw [hret', hnone] at hret
    refine ⟨m, hm, hstored, hend, ?_, fun j hj => ?_⟩
    · cases hk : k.getLsbD 0 with
      | false => exact .inl rfl
      | true =>
          rw [hk, if_pos rfl] at hret
          exact .inr (List.eq_nil_of_length_eq_zero hret)
    · have := congrFun hmem j
      rw [hmem' j, hnone] at this
      simpa [hj] using this.symm
  · rintro ⟨m, hm, hlen, hend, hk, hmem⟩
    have hnone : ((owner.inodes i).contents.drop ppos).take len = [] := by
      rw [List.drop_eq_nil_of_le hend, List.take_nil]
    refine ⟨_, (wjfsRead_link_eq_ok_iff hlink).mpr ⟨m, hm, rfl⟩, hlen, fun peer k' => ?_⟩
    obtain ⟨l, hl, hmem', hret', hpos'⟩ := hlocal peer k'
    rw [hnone] at hret' hpos'
    refine ⟨l, hl, funext fun j => ?_, ?_, hpos'.symm⟩
    · rw [hmem' j, hnone]
      by_cases hj : j < bufSize
      · simp [hj, hmem j hj]
      · simp [hj]
    · rw [hret']
      cases hk with
      | inl hk => rw [hk]; rfl
      | inr hk => rw [hk]; exact ite_self 0

end Local

/-! ## many readers -/

section Readers

variable {R : Type}

/-- A call of `wjfs_read` by one of the readers, with its own buffer, length
and offset. -/
structure Call (R : Type) where
  who : R
  mem : Nat → UInt8
  len : Nat
  ppos : Nat

/-- The calls of the readers in the order in which they happen, from the
counter `k` on: who called, the value returned and the bytes it covers. -/
def readAll (env : Env) (peer : Bytes → Except Fault Bytes) (link : R → Ptr) :
    Host → CInt → List (Call R) → Except Fault (List (R × Nat × Bytes))
  | _, _, [] => .ok []
  | h, k, c :: cs => do
      let o ← h.wjfsRead env peer k (link c.who) c.mem c.len c.ppos
      let rest ← readAll env peer link o.host o.k cs
      .ok ((c.who, o.ret, (List.range o.ret).map o.mem) :: rest)

/-- What comes before the first 0, with it. -/
def upToZero : List (Nat × Bytes) → List (Nat × Bytes)
  | [] => []
  | s :: l => if s.1 = 0 then [s] else s :: upToZero l

variable [DecidableEq R]

/-- What a reader receives: its own results, up to the first 0. -/
def received (r : R) (l : List (R × Nat × Bytes)) : List (Nat × Bytes) :=
  upToZero ((l.filter (·.1 = r)).map Prod.snd)

/-- Every reader receives among the others what it receives alone. -/
def Undisturbed (env : Env) (peer : Bytes → Except Fault Bytes) (link : R → Ptr) (h : Host)
    (k : CInt) (calls : List (Call R)) : Prop :=
  ∃ l, readAll env peer link h k calls = .ok l ∧
    ∀ r, ∃ l', readAll env peer link h k (calls.filter (·.who = r)) = .ok l' ∧
      received r l = received r l'

/-- What a call reports, by the lowest bit of the counter. -/
def report (m : Bytes) (b : Bool) : Nat × Bytes := if b then (m.length, m) else (0, [])

theorem getLsbD_succ (k : CInt) : (k + 1).getLsbD 0 = !k.getLsbD 0 := by
  have hmod : (k + 1).toNat % 2 = (k.toNat + 1) % 2 := by
    rw [BitVec.toNat_add]
    have : (1 : CInt).toNat = 1 := rfl
    omega
  simp only [BitVec.getLsbD, Nat.testBit_zero, hmod]
  by_cases hk : k.toNat % 2 = 1
  · simp [hk]; omega
  · simp [hk]; omega

/-- What precedes the first 0 is what precedes the first `false`. -/
theorem upToZero_map_report {m : Bytes} (hne : m ≠ []) (bs : List Bool) :
    upToZero (bs.map (report m)) = (Turns.heard bs).map (report m) := by
  induction bs with
  | nil => rfl
  | cons b bs ih =>
      cases b with
      | true => simp [upToZero, Turns.heard, report, hne, ih]
      | false => simp [upToZero, Turns.heard, report]

theorem report_injective {m : Bytes} (hne : m ≠ []) : Function.Injective (report m) := by
  intro a b hab
  cases a <;> cases b <;> simp_all [report]

variable {env : Env} {h : Host} {peer : Bytes → Except Fault Bytes} {link : R → Ptr}
  {m : R → Bytes}

omit [DecidableEq R] in
/-- The value returned by a read through a link and the bytes it covers. -/
theorem covered_eq_report {r : R} (hfetch : h.fetch env peer (link r) = .ok (m r)) (k : CInt)
    (mem : Nat → UInt8) :
    ((if k.getLsbD 0 then (m r).length else 0),
      (List.range (if k.getLsbD 0 then (m r).length else 0)).map
        fun j => if j < bufSize then ((m r)[j]?).getD 0 else mem j) =
      report (m r) (k.getLsbD 0) := by
  have hlen := length_fetch hfetch
  cases k.getLsbD 0 with
  | false => rfl
  | true =>
      simp only [report, if_true, Prod.mk.injEq, true_and]
      apply List.ext_getElem
      · simp
      · intro j h₁ h₂
        have hj : j < bufSize := by omega
        simp [hj, List.getElem?_eq_getElem h₂]

/-- All calls go through, and each reader's results follow the counter. -/
theorem exists_readAll (hlink : ∀ r, h.isMyFile (link r) = .ok false)
    (hfetch : ∀ r, h.fetch env peer (link r) = .ok (m r)) (k : CInt) (calls : List (Call R)) :
    ∃ l, readAll env peer link h k calls = .ok l ∧ ∀ r,
      (l.filter (·.1 = r)).map Prod.snd =
        (Turns.answers r (k.getLsbD 0) (calls.map Call.who)).map (report (m r)) := by
  induction calls generalizing k with
  | nil => exact ⟨[], rfl, fun r => rfl⟩
  | cons c cs ih =>
      obtain ⟨l, hl, hres⟩ := ih (k + 1)
      have hread : h.wjfsRead env peer k (link c.who) c.mem c.len c.ppos = .ok _ :=
        (wjfsRead_link_eq_ok_iff (hlink c.who)).mpr ⟨_, hfetch c.who, rfl⟩
      refine ⟨(c.who, report (m c.who) (k.getLsbD 0)) :: l, ?_, fun r => ?_⟩
      · simp only [readAll, hread, bind, Except.bind, hl,
          ← covered_eq_report (hfetch c.who) k c.mem]
      · rw [getLsbD_succ] at hres
        by_cases hr : c.who = r
        · subst hr
          simp [Turns.answers, hres]
        · simp [Turns.answers, hres, hr]

/-- What the readers receive, by the turns they take. -/
theorem exists_received (hlink : ∀ r, h.isMyFile (link r) = .ok false)
    (hfetch : ∀ r, h.fetch env peer (link r) = .ok (m r)) (hne : ∀ r, m r ≠ []) (k : CInt)
    (calls : List (Call R)) :
    ∃ l, readAll env peer link h k calls = .ok l ∧ ∀ r, received r l =
      (Turns.heard (Turns.answers r (k.getLsbD 0) (calls.map Call.who))).map (report (m r)) := by
  obtain ⟨l, hl, hres⟩ := exists_readAll hlink hfetch k calls
  exact ⟨l, hl, fun r => by rw [received, hres r, upToZero_map_report (hne r)]⟩

/-- **Readers and the shared counter**: for any number of links, any non-empty
replies and any order of the readers' calls, every reader receives what it
receives alone exactly when an even number of calls of other readers stand
before each of its calls up to the first 0 it would see alone. -/
theorem undisturbed_iff (hlink : ∀ r, h.isMyFile (link r) = .ok false)
    (hfetch : ∀ r, h.fetch env peer (link r) = .ok (m r)) (hne : ∀ r, m r ≠ []) (k : CInt)
    (calls : List (Call R)) :
    Undisturbed env peer link h k calls ↔
      ∀ r pre post, calls.map Call.who = pre ++ r :: post →
        pre.count r < (if k.getLsbD 0 then 2 else 1) → Even (pre.countP (· ≠ r)) := by
  obtain ⟨l, hl, hrec⟩ := exists_received hlink hfetch hne k calls
  have halone : ∀ r, ∃ l', readAll env peer link h k (calls.filter (·.who = r)) = .ok l' ∧
      (received r l = received r l' ↔
        Turns.heard (Turns.answers r (k.getLsbD 0) (calls.map Call.who)) =
          Turns.heard (Turns.answers r (k.getLsbD 0) ((calls.map Call.who).filter (· = r)))) := by
    intro r
    obtain ⟨l', hl', hrec'⟩ := exists_received hlink hfetch hne k (calls.filter (·.who = r))
    have hfilter : (calls.filter (·.who = r)).map Call.who =
        (calls.map Call.who).filter (· = r) := by
      rw [List.filter_map]
      rfl
    refine ⟨l', hl', ?_⟩
    rw [hrec r, hrec' r, hfilter,
      (List.map_injective_iff.mpr (report_injective (hne r))).eq_iff]
  constructor
  · rintro ⟨l₂, hl₂, hview⟩ r
    obtain rfl := Except.ok.inj (hl.symm.trans hl₂)
    obtain ⟨l', hl', hiff⟩ := halone r
    obtain ⟨l₃, hl₃, heq⟩ := hview r
    obtain rfl := Except.ok.inj (hl'.symm.trans hl₃)
    exact (Turns.heard_eq_iff r _ _).mp (hiff.mp heq)
  · intro heven
    refine ⟨l, hl, fun r => ?_⟩
    obtain ⟨l', hl', hiff⟩ := halone r
    exact ⟨l', hl', hiff.mpr ((Turns.heard_eq_iff r _ _).mpr (heven r))⟩

end Readers

end Host

/-! ## a link to a file that holds `"hi"` -/

/-- How a host whose file `f` holds `"hi"` answers, with zeros on its stack. -/
def answerHi : Bytes → Except Fault Bytes := (holding [104, 105]).rdmaRead zeroStack

/-- At the end of the file, into memory that holds the reply already and with
an even counter, the two reads agree. -/
theorem agreesWithLocal_iff_end :
    ∃ h, linkedF = .ok h ∧
      h.AgreesWithLocal (Env.server true) 2 (holding [104, 105]) zeroStack 2 2
        (fun j => ([104, 105] : Bytes)[j]?.getD 0) 1024 2 := by
  have hlink : linkedF.toOption.map (·.isMyFile 2) = some (.ok false) := by decide
  have hfetch : linkedF.toOption.map (·.fetch (Env.server true) answerHi 2) =
      some (.ok [104, 105]) := by decide +kernel
  obtain ⟨h, hh, hmine⟩ := exists_of_toOption_map hlink
  rw [hh] at hfetch
  exact ⟨h, hh, (Host.agreesWithLocal_iff (i := 3) hmine (by decide +kernel)
    (by decide)).mpr ⟨[104, 105], Option.some.inj hfetch, le_rfl, by decide,
      .inl rfl, fun j _ => rfl⟩⟩

/-- A read of one byte through the link stores 1024 and returns 2; on the file
itself it stores one, returns 1 and moves `*ppos`. -/
theorem read_ignores_length :
    (linkedF >>= fun h => h.wjfsRead (Env.server true) answerHi 1 2 (fun _ => 0) 1 0).toOption.map
        (fun r => (r.stored, r.ret, r.ppos)) = some (1024, 2, 0) ∧
      ((holding [104, 105]).wjfsRead (Env.server true) answerHi 1 2 (fun _ => 0) 1 0).toOption.map
        (fun l => (l.stored, l.ret, l.ppos)) = some (1, 1, 1) := by
  decide +kernel

/-- A call with a fresh buffer of 32768 bytes, as `cat` makes them. -/
def catCall (who : Bool) : Host.Call Bool := ⟨who, fun _ => 0, 32768, 0⟩

/-- Two readers that take their two calls one after the other do not disturb
each other. -/
theorem undisturbed_iff_sequential :
    ∃ h, linkedF = .ok h ∧ Host.Undisturbed (Env.server true) answerHi (fun _ => 2) h 1
      [catCall false, catCall false, catCall true, catCall true] := by
  have hlink : linkedF.toOption.map (·.isMyFile 2) = some (.ok false) := by decide
  have hfetch : linkedF.toOption.map (·.fetch (Env.server true) answerHi 2) =
      some (.ok [104, 105]) := by decide +kernel
  obtain ⟨h, hh, hmine⟩ := exists_of_toOption_map hlink
  rw [hh] at hfetch
  refine ⟨h, hh, (Host.undisturbed_iff (m := fun _ => [104, 105]) (fun _ => hmine)
    (fun _ => Option.some.inj hfetch) (by simp) 1 _).mpr ?_⟩
  intro r pre post hsplit _
  simp only [List.map_cons, List.map_nil, catCall, List.cons_eq_append_iff,
    List.cons.injEq] at hsplit
  obtain ⟨rfl, rfl, -⟩ | ⟨pre, rfl, ⟨rfl, rfl, -⟩ | ⟨pre, rfl, ⟨rfl, rfl, -⟩ |
    ⟨pre, rfl, ⟨rfl, rfl, -⟩ | h⟩⟩⟩ := hsplit
  all_goals first | decide | simp at h

/-- Of two readers that start at the same time, the second is told that the
file is empty. -/
theorem second_reader_sees_nothing :
    (linkedF >>= fun h => Host.readAll (Env.server true) answerHi (fun _ => 2) h 1
        [catCall false, catCall true]).toOption =
      some [(false, 2, [104, 105]), (true, 0, [])] ∧
    (linkedF >>= fun h => Host.readAll (Env.server true) answerHi (fun _ => 2) h 1
        [catCall true]).toOption = some [(true, 2, [104, 105])] := by
  decide +kernel

end Wjfs
