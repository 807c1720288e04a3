import Wjfs.Progress
import Wjfs.Routing
import Wjfs.Tree

/-!
# Wjfs.Rounds

Two hosts that make one call at a time.

The calmest way to use two hosts is a round for each call: a host makes it, and
the peer handles its frame before anything else is called.  Nothing is under way then
when a call is made, and what keeps the hosts together is no longer a matter of
what may cross.  `MayCall` asks for a new name, for fresh numbers and for room
for the link, and that a file is removed by the host that made it while nobody
has it open.  Every such round goes through, both hosts have the same paths
after it, and the requests of every link reach the file at the link's own path.
-/

namespace Wjfs

open Replica

namespace Net

/-- Nothing is under way. -/
def Idle (N : Net) : Prop := ∀ s, (N s).host.outbox = []

/-- A host makes a call, and its peer handles the frame that the call sent. -/
def round (N : Net) (s : Bool) (env : Env) (op : Op) (stale : Stale) (ip : Bytes) :
    Except Fault Net := do
  (← N.step (.call s env op)).step (.deliver s true stale ip)

/-- The host may make a call.  It makes a file under a well-formed name that none
of its live dentries has, both hosts draw fresh numbers, and the peer has room
for one more link.  It removes only files that it made itself, and no dentry of
that name is open on either host. -/
structure MayCall (N : Net) (s : Bool) (env : Env) (op : Op) : Prop where
  plain : op.Plain
  connects : env.connects = true
  memory : env.newInode = true
  make : ∀ x ∈ op.makes?, WellFormed x.2 ∧ ¬ (N s).host.LiveName x.2 ∧
    (∀ r, (N r).host.FreshIno) ∧ (N (!s)).host.linkCount < tableSize
  owned : ∀ x ∈ op.removes?, ∀ dir di d i, (N s).host.Victim env x.1 dir di d → d.dName = x.2 →
    d.dInode = some i → i ∈ (N s).mine
  closed : ∀ x ∈ op.removes?, ∀ r, ∀ k ∈ (N r).host.files, (N r).host.dName? k ≠ some x.2

/-- What goes on beside the calls: files are opened and closed, and other
filesystems draw numbers. -/
def Action.Aside : Action → Prop
  | .openFile .. | .closeFile .. | .elsewhere .. => True
  | .call .. | .deliver .. | .write .. | .read .. => False

/-- What becomes of two hosts in rounds. -/
inductive Rounds (N₀ : Net) : Net → Prop
  | start : Rounds N₀ N₀
  | round {N N' : Net} {s : Bool} {env : Env} {op : Op} {stale : Stale} {ip : Bytes} :
      Rounds N₀ N → N.MayCall s env op → N.round s env op stale ip = .ok N' → Rounds N₀ N'
  | aside {N N' : Net} {a : Action} : Rounds N₀ N → a.Aside → N.step a = .ok N' → Rounds N₀ N'

variable {lastIno : Bool → CInt} {perm : Bool → BitVec 12} {nextPtr : Bool → Ptr}
  {table : Bool → Table} {N N' : Net} {S : State Bytes (CInt × CInt)} {s : Bool} {env : Env}
  {op : Op} {a : Action} {tag : Bytes} {c : Control} {link : Ptr}

/-! ## one round -/

theorem Idle.not_incoming (hidle : N.Idle) : ¬ N.Incoming s tag c := by
  rintro ⟨buf, hbuf, -⟩
  rw [hidle] at hbuf
  cases hbuf

theorem Idle.settled (hidle : N.Idle) : N.Settled := fun s buf hbuf => by
  rw [hidle] at hbuf
  cases hbuf

/-- When nothing is under way, such a call is safe. -/
theorem MayCall.safe (hm : N.MayCall s env op) (hS : N.Refines S) (hidle : N.Idle) :
    N.Safe (.call s env op) := by
  refine ⟨hm.plain, hm.connects, fun x hx => ?_, fun x hx => ?_⟩
  · obtain ⟨hplain, hfree, hfresh, -⟩ := hm.make x hx
    exact ⟨hplain, hfree, hfresh s, fun c hc => (hidle.not_incoming hc).elim,
      fun c hc => (hidle.not_incoming hc).elim⟩
  · refine ⟨hm.owned x hx, fun dir di d hv hname hopen => ?_,
      fun c hc => (hidle.not_incoming hc).elim⟩
    have ho := (hS.shows s).orderly
    have hd := ho.dName?_of_mem (hv.mem ho.tidy.sound.nodup)
    exact hm.closed x hx s d.ptr hopen (hd.trans (congrArg some hname))

/-- A remove frame that is the oldest of a host resolves to a link of its name. -/
theorem Refines.exists_resolved? {f : Row} {rest : List Bytes} (hS : N.Refines S)
    (hsend : Sendable f) (hbox : (N s).host.outbox = encode (.del f) :: rest) :
    ∃ d, (N (!s)).host.resolved? (Row.control f) = some d ∧
      (N (!s)).host.dName? d.ptr = some f.name := by
  obtain ⟨m, q, hq, henc, hm, -⟩ | ⟨htag, -⟩ := (hS.shows s).pop hbox
  swap
  · exact absurd htag (take_encode_del_ne (by decide))
  cases m with
  | add g =>
      have htag : (encode (.del f)).take 2 = tagCR := henc ▸ take_encode_add
      exact absurd htag (take_encode_del_ne (by decide))
  | del g =>
      -- equal frames are parsed to the same fields
      have hparse : parseControl (encode (.del f)) = .ok (Row.control f) := Sendable.parse hsend
      have hsame : Row.control g = Row.control f :=
        Except.ok.inj (hm.parse.symm.trans (henc ▸ hparse))
      obtain ⟨d, hd, hname⟩ := (hS.shows (!s)).orderly.exists_resolved? (hS.deletable hq).mem
      exact ⟨d, hsame ▸ hd, hname.trans (congrArg some (congrArg Control.name hsame))⟩

/-- The peer may be given the frame of the call, and has room for it. -/
theorem MayCall.mayHandle {N₁ : Net} {S₁ : State Bytes (CInt × CInt)} {buf : Bytes}
    (hm : N.MayCall s env op) (hS₁ : N₁.Refines S₁) (hpeer : N₁ (!s) = N (!s))
    (hbox : (N₁ s).host.outbox = [buf]) (hsends : op.Sends [buf]) :
    N₁.MayHandle s buf ∧
      (buf.take 2 = tagCR → (N₁ (!s)).host.table.live.length < tableSize) ∧
      (buf.take 2 = tagWR → ∃ req, parseWrite buf = .ok req) := by
  cases hsends with
  | @made path n f hop hsend hname =>
      obtain ⟨-, -, hfresh, hroom⟩ := hm.make _ hop
      refine ⟨⟨fun _ => hpeer ▸ hfresh !s, fun htag => ?_⟩, fun _ => ?_, fun htag => ?_⟩
      · exact absurd htag (take_encode_add_ne (by decide))
      · rw [(hS₁.shows (!s)).orderly.length_live, hpeer]
        exact hroom
      · exact absurd htag (take_encode_add_ne (by decide))
  | @removed path n f hop hsend hname =>
      refine ⟨⟨fun htag => ?_, fun _ c hc d hd hopen => ?_⟩, fun htag => ?_, fun htag => ?_⟩
      · exact absurd htag (take_encode_del_ne (by decide))
      · -- the link has the name of the file, and nothing of that name is open
        obtain ⟨d', hd', hname'⟩ := hS₁.exists_resolved? hsend hbox
        have hparse : parseControl (encode (.del f)) = .ok (Row.control f) := Sendable.parse hsend
        obtain rfl : Row.control f = c := Except.ok.inj (hparse.symm.trans hc)
        obtain rfl : d' = d := Option.some.inj (hd'.symm.trans hd)
        rw [hpeer] at hopen hname'
        exact hm.closed _ hop (!s) _ hopen (hname'.trans (congrArg some hname))
      · exact absurd htag (take_encode_del_ne (by decide))
      · exact absurd htag (take_encode_del_ne (by decide))

/-- **A round goes through** and leaves nothing under way. -/
theorem Refines.round (hS : N.Refines S) (hidle : N.Idle) (hm : N.MayCall s env op)
    (stale : Stale) (ip : Bytes) :
    ∃ N' S', N.round s env op stale ip = .ok N' ∧ N'.Refines S' ∧ N'.Idle := by
  have hsafe := hm.safe hS hidle
  obtain ⟨⟨h, err⟩, hcall⟩ := Host.exists_call (hS.shows s).orderly.tidy hm.plain hm.memory
    (hS.removable hsafe.2.2.2)
  obtain ⟨S₁, frames, hS₁, hbox, hsends⟩ := hS.call hsafe hcall
  rw [hidle s, List.nil_append] at hbox
  obtain ⟨N₁, hN₁⟩ : ∃ N₁ : Net, N₁ = Function.update N s ((N s).become h) := ⟨_, rfl⟩
  rw [← hN₁] at hS₁
  have hpeer : N₁ (!s) = N (!s) := by rw [hN₁, Function.update_of_ne (by simp)]
  have hself : (N₁ s).host.outbox = frames := by
    rw [hN₁, Function.update_self]
    exact hbox
  have hround : N.round s env op stale ip = N₁.step (.deliver s true stale ip) := by
    rw [hN₁, Net.round, Net.step, hcall]
    rfl
  rw [hround]
  have hboxes : ∀ N₂ : Net, (N₂ s).host.outbox = [] →
      (N₂ (!s)).host.outbox = (N (!s)).host.outbox → N₂.Idle := by
    intro N₂ hs hp r
    by_cases hrs : r = s
    · rw [hrs, hs]
    · obtain rfl : r = !s := by cases r <;> cases s <;> simp_all
      rw [hp, hidle]
  obtain rfl | ⟨buf, rfl⟩ := hsends.eq_nil_or_singleton
  · exact ⟨N₁, S₁, by simp only [Net.step, hself], hS₁, hboxes N₁ hself (by rw [hpeer])⟩
  · obtain ⟨hmay, hroom, hdata⟩ := hm.mayHandle hS₁ hpeer hself hsends
    obtain ⟨N₂, hdeliver, hs₂, -, hp₂⟩ := hS₁.step_deliver hself hmay hroom hdata stale ip
    have hsafe₁ : N₁.Safe (.deliver s true stale ip) := fun b hb => by
      rw [hself] at hb
      cases hb
      exact hmay
    obtain ⟨S₂, hS₂⟩ := hS₁.step hsafe₁ hdeliver
    exact ⟨N₂, S₂, hdeliver, hS₂, hboxes N₂ (by rw [hs₂]) (by rw [hp₂, hpeer])⟩

/-! ## all rounds -/

/-- What goes on beside the calls is safe and sends nothing. -/
theorem Refines.aside (hS : N.Refines S) (hidle : N.Idle) (ha : a.Aside)
    (hok : N.step a = .ok N') : ∃ S', N'.Refines S' ∧ N'.Idle := by
  have hsafe : N.Safe a := by
    cases a with
    | openFile | closeFile | elsewhere => trivial
    | call | deliver | write | read => cases ha
  obtain ⟨S', hS'⟩ := hS.step hsafe hok
  refine ⟨S', hS', fun r => ?_⟩
  -- one of the hosts becomes another, with the same outbox
  have hbox : ∃ s h, N' = Function.update N s ((N s).become h) ∧
      h.outbox = (N s).host.outbox := by
    cases a with
    | openFile s env path name =>
        obtain ⟨⟨h, err⟩, hopen, rfl⟩ := map_eq_ok hok
        exact ⟨s, h, rfl, ((hS.shows s).orderly.quiet_sysOpen hopen).outbox⟩
    | closeFile s k =>
        cases hok
        exact ⟨s, _, rfl, ((hS.shows s).orderly.quiet_sysClose k).outbox⟩
    | elsewhere s n =>
        cases hok
        exact ⟨s, _, rfl, rfl⟩
    | call | deliver | write | read => cases ha
  obtain ⟨s, h, rfl, hout⟩ := hbox
  by_cases hrs : r = s
  · subst hrs
    rw [Function.update_self]
    exact hout.trans (hidle r)
  · rw [Function.update_of_ne hrs]
    exact hidle r

/-- Between two rounds nothing is under way, and the hosts keep together. -/
theorem Rounds.refines (hino : ∀ s, InRange (lastIno s + 1))
    (hr : Rounds (mounted lastIno perm nextPtr table) N) : ∃ S, N.Refines S ∧ N.Idle := by
  induction hr with
  | start =>
      obtain ⟨S, hS⟩ := Run.refines hino (.start : Run Safe _ (mounted lastIno perm nextPtr table))
      exact ⟨S, hS, fun _ => rfl⟩
  | @round N N' s env op stale ip _ hm hok ih =>
      obtain ⟨S, hS, hidle⟩ := ih
      obtain ⟨N₂, S₂, hround, hS₂, hidle₂⟩ := hS.round hidle hm stale ip
      obtain rfl := Except.ok.inj (hround.symm.trans hok)
      exact ⟨S₂, hS₂, hidle₂⟩
  | aside _ ha hok ih =>
      obtain ⟨S, hS, hidle⟩ := ih
      exact hS.aside hidle ha hok

/-- What it takes to make a file in a round. -/
theorem mayCall_of_makes {path : List Bytes} {n : Bytes} (hop : op.makes? = some (path, n))
    (hm : WellFormed n ∧ ¬ (N s).host.LiveName n ∧ (∀ r, (N r).host.FreshIno) ∧
      (N (!s)).host.linkCount < tableSize) : N.MayCall s (.server true) op := by
  have hnone := Op.removes?_of_makes hop
  refine ⟨Op.plain_of_makes hop, rfl, rfl, fun x hx => ?_, fun x hx => ?_, fun x hx => ?_⟩
  · obtain rfl := Option.some.inj (hop.symm.trans hx)
    exact hm
  · rw [hnone] at hx
    cases hx
  · rw [hnone] at hx
    cases hx

/-- What a host draws in its call is its own. -/
theorem mine_of_round {stale : Stale} {ip : Bytes}
    (hok : N.round s env op stale ip = .ok N') : ∃ r, (N s).host.call env op = .ok r ∧
      (N' s).mine = (N s).mine ∪ Set.Ico (N s).host.nextPtr r.1.nextPtr := by
  obtain ⟨N₁, hcall, hdeliver⟩ := bind_eq_ok hok
  obtain ⟨r, hr, rfl⟩ := map_eq_ok hcall
  refine ⟨r, hr, ?_⟩
  rw [mine_of_deliver hdeliver, Function.update_self]
  rfl

/-- The file `f` is made and removed again on one host; then the other makes a
directory of that name. -/
def reuse : Except Fault Net := do
  let N ← pair.round true (.server true) (.create [] [102] 0o644) zeroStack []
  let N ← N.round true (.server true) (.unlink [] [102]) zeroStack []
  N.round false (.server true) (.mkdir [] [102] 0o755) zeroStack []

theorem rounds_reuse (hN : reuse = .ok N) : Rounds pair N := by
  obtain ⟨N₁, h1, hN⟩ := bind_eq_ok hN
  obtain ⟨N₂, h2, h3⟩ := bind_eq_ok hN
  have hr₁ : Rounds pair N₁ := .round .start (mayCall_of_makes rfl (by decide +kernel)) h1
  have hval₁ : (pair.round true (.server true) (.create [] [102] 0o644) zeroStack []).toOption.map
      (fun N => decide ((N true).host.dcache.ptrs.Nodup ∧ (∀ r, (N r).host.files = []) ∧
        ∀ x ∈ (N true).host.dcache.nodes, x.2.dName = [102] → x.2.dInode = some 3)) =
        some true := by
    decide
  rw [h1] at hval₁
  obtain ⟨hnodup, hfiles, hvictim⟩ := of_decide_eq_true (Option.some.inj hval₁)
  -- the file is the host's own
  have hmine : 3 ∈ (N₁ true).mine := by
    obtain ⟨r, hr, hown⟩ := mine_of_round h1
    have hnext : ((pair true).host.call (.server true) (.create [] [102] 0o644)).toOption.map
        (fun r => decide (r.1.nextPtr = 4)) = some true := by
      decide
    rw [hr] at hnext
    rw [hown]
    exact .inr ⟨by decide, by rw [of_decide_eq_true (Option.some.inj hnext)]; decide⟩
  have hm₂ : N₁.MayCall true (.server true) (.unlink [] [102]) := by
    refine ⟨.inr (.inl ⟨_, _, rfl⟩), rfl, rfl, fun x hx => (by cases hx), ?_, ?_⟩
    · rintro x ⟨⟩ dir di d i hv hname hi
      rw [← Option.some.inj ((hvictim _ (hv.mem hnodup) hname).symm.trans hi)]
      exact hmine
    · rintro x - r k hk
      rw [hfiles] at hk
      cases hk
  have hval₂ : (pair.round true (.server true) (.create [] [102] 0o644) zeroStack []).toOption.bind
      (fun N => (N.round true (.server true) (.unlink [] [102]) zeroStack []).toOption.map
        (fun N => decide (¬ (N false).host.LiveName [102] ∧ (∀ r, (N r).host.FreshIno) ∧
          (N true).host.linkCount < tableSize))) = some true := by
    decide +kernel
  rw [h1] at hval₂
  simp only [Except.toOption, Option.bind_some] at hval₂
  rw [h2] at hval₂
  have hm₃ := of_decide_eq_true (Option.some.inj hval₂)
  exact .round (.round hr₁ hm₂ h2) (mayCall_of_makes rfl ⟨by decide, hm₃⟩) h3

/-- **The requests of a link reach its file**: after every round, for every link
there is a file at the same path that the peer made itself.  The read request
of the link is parsed and has a number by which the peer finds that file, and
so has every write request that is parsed; that of a short clean payload is. -/
theorem requests_reach_file (hino : ∀ s, InRange (lastIno s + 1))
    (hr : Rounds (mounted lastIno perm nextPtr table) N)
    (hlink : (N s).host.isMyFile link = .ok false) :
    ∃ path d, (N s).host.AtPath path link ∧ (N (!s)).host.AtPath path d.ptr ∧
      (N (!s)).host.isMyFile d.ptr = .ok true ∧
      (∃ frame req, (N s).host.wjfsClientRead link = .ok frame ∧ parseRead frame = .ok req ∧
        (N (!s)).host.findDentryByIno (N (!s)).host.root req.ino = some d) ∧
      ∀ message, ∃ frame, (N s).host.wjfsClientWrite link message = .ok frame ∧
        (Payload message → ∃ req, parseWrite frame = .ok req) ∧
        ∀ req, parseWrite frame = .ok req →
          (N (!s)).host.findDentryByIno (N (!s)).host.root req.ino = some d := by
  obtain ⟨S, hS, hidle⟩ := hr.refines hino
  obtain ⟨i, hi⟩ := Host.exists_dInode_of_isMyFile hlink
  obtain ⟨path, ha⟩ := (hS.shows s).orderly.tidy.exists_atPath hi
  obtain ⟨f, d, hrefers, hstores, hd⟩ := hS.exists_stores_at hidle.settled hlink ha
  have hpeer := (hS.shows (!s)).orderly
  have hsend := hpeer.sendable_of_owns (hpeer.mem_owns_of_stores hstores)
  obtain ⟨hclient, hparse⟩ := clientRead_of_refers hsend hrefers
  refine ⟨path, d, ha, hd, hstores.mine, ⟨_, _, hclient, hparse, hstores.found⟩, fun message =>
    ⟨_, clientWrite_of_refers hrefers message, fun hbuf => ?_, fun req hreq => ?_⟩⟩
  · obtain ⟨req, hreq, -⟩ : PayloadSurvives (writeRequest f.id.1 f.name f.id.2 f.parent message)
        message := payloadSurvives_of hsend.name.fitsRow hsend.fitsRow_parent hbuf.length hbuf.line
    exact ⟨req, hreq⟩
  · rw [ino_of_writeRequest hsend hreq]
    exact hstores.found

/-- The link that is left when a name was used twice. -/
theorem requests_reach_file_reuse : ∃ N link path d, reuse = .ok N ∧
    (N true).host.isMyFile link = .ok false ∧ (N true).host.AtPath path link ∧
    (N false).host.AtPath path d.ptr ∧ (N false).host.isMyFile d.ptr = .ok true ∧
    ∃ frame req, (N true).host.wjfsClientRead link = .ok frame ∧ parseRead frame = .ok req ∧
      (N false).host.findDentryByIno (N false).host.root req.ino = some d := by
  have hval : reuse.toOption.map (fun N => (N true).host.dcache.ptrs.filter
      fun k => decide ((N true).host.isMyFile k = .ok false)) = some [4] := by
    decide +kernel
  obtain ⟨N, hN, hlinks⟩ := exists_of_toOption_map hval
  have hmem : (4 : Ptr) ∈ (N true).host.dcache.ptrs.filter
      fun k => decide ((N true).host.isMyFile k = .ok false) := by
    rw [hlinks]
    exact List.mem_singleton_self _
  have hlink := of_decide_eq_true (List.mem_filter.mp hmem).2
  obtain ⟨path, d, ha, hd, hmine, hread, -⟩ :=
    requests_reach_file (by decide) (rounds_reuse hN) hlink
  exact ⟨N, 4, path, d, hN, hlink, ha, hd, hmine, hread⟩

end Net

end Wjfs
