import Wjfs.Converge
import Wjfs.Survival

/-!
# Wjfs.Progress

Which frames are handled, and where that ends.

In a safe run the oldest frame of a host can only fail for want of memory or of
an entry in the table, which has one for every link; a frame that writes to a
file must also be one that its parser takes.  So as long as there is enough of
both, the frames under way can be handled one after the other, and then the two
hosts agree.
-/

namespace Wjfs

open Replica

namespace Host

variable {h g : Host} {mine : Set Ptr} {f : Row} {i : Ptr}

/-- How many links there are. -/
def linkCount (h : Host) : Nat := h.dcache.ptrs.countP fun k => decide (h.isMyFile k = .ok false)

/-- The table has an entry for every link, and no other. -/
theorem Orderly.length_live (ho : Orderly mine h) : h.table.live.length = h.linkCount := by
  have hperm : (h.table.live.map fun e => some e.localIno).Perm
      ((h.dcache.bare.filter fun x => decide (h.isMyFile x.2.ptr = .ok false)).map
        fun x => x.2.dInode.map h.number) := by
    refine (List.perm_ext_iff_of_nodup ?_ ?_).mpr fun m => ?_
    · have hnodup := ho.distinct.map (Option.some_injective _)
      rwa [List.map_map] at hnodup
    · exact ho.numbers.sublist (List.filter_sublist.map _)
    · simp only [List.mem_map, List.mem_filter, decide_eq_true_eq]
      constructor
      · rintro ⟨e, he, rfl⟩
        obtain ⟨k, hk, r, ⟨p, b, x, j, hs, rfl⟩, hid⟩ := ho.entry e he
        obtain ⟨⟨q, d⟩, hd, heq⟩ := Dcache.exists_of_mem_bare hs.mem
        cases heq
        have hnum : h.number k = e.localIno := congrArg Prod.fst hid
        refine ⟨_, ⟨hs.mem, ?_⟩, ?_⟩
        · refine (ho.isMyFile_eq hd hs.inode).trans (congrArg Except.ok ?_)
          rw [← Bool.not_eq_true, Table.isMyFile_iff]
          exact fun hno => hno e he hnum.symm
        · rw [hs.inode, Option.map_some, hnum]
      · rintro ⟨x, ⟨hx, hlink⟩, rfl⟩
        obtain ⟨p, d, y, i, j, hd, hptr, hs, -, e, he, hloc⟩ := ho.exists_seat_of_link hlink
        obtain rfl := ho.eq_of_ptr hs.mem hx hptr
        exact ⟨e, he, by rw [hs.inode, Option.map_some, hloc]⟩
  have hlen := hperm.length_eq
  rw [List.length_map, List.length_map] at hlen
  rw [hlen, linkCount, ← Dcache.map_ptr_bare, List.countP_map, List.countP_eq_length_filter]
  rfl

/-- A frame that writes to a file takes nothing. -/
theorem costs_setInode (i : Ptr) {F : Inode → Inode} (hF : ∀ n, (F n).SameKind n) :
    Costs h (h.setInode i F) := by
  refine ⟨rfl, Nat.le_succ _, .inl ⟨rfl, ?_⟩⟩
  rintro m ⟨x, hx, k, hk, rfl⟩
  have hsame : SameFile (h.inodes k) ((h.setInode i F).inodes k) :=
    SameFile.setInode ⟨rfl, rfl⟩ (fun n => ⟨(hF n).2.2, (hF n).isDir⟩) i
  exact ⟨x, hx, k, hk, hsame.1⟩

theorem Costs.refl (h : Host) : Costs h h := ⟨rfl, Nat.le_succ _, .inl ⟨rfl, fun _ hm => hm⟩⟩

end Host

namespace Net

variable {lastIno : Bool → CInt} {perm : Bool → BitVec 12} {nextPtr : Bool → Ptr}
  {table : Bool → Table} {N N' : Net} {S : State Bytes (CInt × CInt)} {s newInode : Bool}
  {stale : Stale} {ip buf : Bytes} {rest : List Bytes} {f : Row}
  {q : List (Msg Bytes (CInt × CInt))}

/-! ## one frame -/

/-- A create frame has a place. -/
theorem Refines.place (hS : N.Refines S) (hq : S.queue s = .add f :: q) (hsend : Sendable f) :
    ∃ p i, (N (!s)).host.Place (Row.control f) p i := by
  obtain ⟨p, i, hl, hdead⟩ := (hS.shows (!s)).orderly.linkable (hS.addable hq) hsend.name
  refine ⟨p, i, hl.parent, hl.inode, hl.isDir, hsend.name.isName, fun d hd => ?_,
    fun _ => ⟨hdead, ?_⟩⟩
  · rw [hl.miss] at hd
    cases hd
  · exact Nat.le_trans hsend.name.2.1 (by decide)

/-- What the peer needs for the oldest frame. -/
theorem Refines.pass_ok_iff (hS : N.Refines S) (hbox : (N s).host.outbox = buf :: rest) :
    (∃ r, (N (!s)).host.pass (.server newInode) stale ip buf = .ok r) ↔
      (buf.take 2 = tagCR → newInode = true ∧ (N (!s)).host.table.live.length < tableSize) ∧
      (buf.take 2 = tagWR → ∃ req, parseWrite buf = .ok req) := by
  rw [Host.pass_ok_iff (hS.shows (!s)).sane]
  obtain ⟨m, q, hq, rfl, hsend, -⟩ | ⟨htag, -⟩ := (hS.shows s).pop hbox
  · cases m with
    | add f =>
        have hplace := hS.place hq hsend
        refine ⟨fun hv => ⟨fun hc => ?_, fun hw => absurd hw (take_encode_add_ne (by decide))⟩,
          fun hok => ⟨fun hb => absurd hb (take_encode_add_ne (by decide)), fun _ =>
            ⟨fun hw => absurd hw (take_encode_add_ne (by decide)), fun hc => ?_,
              fun hm => absurd hm (take_encode_add_ne (by decide))⟩⟩⟩
        · obtain ⟨hmem, hroom, -⟩ := (hv.other (take_encode_add_ne (by decide))).create hc
          exact ⟨hmem, hroom⟩
        · exact ⟨(hok.1 hc).1, (hok.1 hc).2, _, hsend.parse, hplace⟩
    | del f =>
        refine iff_of_true ⟨fun hb => absurd hb (take_encode_del_ne (by decide)), fun _ =>
          ⟨fun hw => absurd hw (take_encode_del_ne (by decide)),
            fun hc => absurd hc (take_encode_del_ne (by decide)),
            fun _ => ⟨_, hsend.parse,
              (hS.shows (!s)).orderly.tidy.not_freesDir Host.one_le_onePin _⟩⟩⟩
          ⟨fun hc => absurd hc (take_encode_del_ne (by decide)),
            fun hw => absurd hw (take_encode_del_ne (by decide))⟩
  · have hread : buf.take 2 ≠ tagRD := by rw [htag]; decide
    have hcreate : buf.take 2 ≠ tagCR := by rw [htag]; decide
    have hremove : buf.take 2 ≠ tagRM := by rw [htag]; decide
    exact ⟨fun hv => ⟨fun hc => absurd hc hcreate, (hv.other hread).write⟩,
      fun hok => ⟨fun hb => absurd hb hread, fun _ => ⟨hok.2, fun hc => absurd hc hcreate,
        fun hm => absurd hm hremove⟩⟩⟩

/-- **Which deliveries go through**: in every state of a safe run, the oldest
frame of a host is handled exactly if a create frame finds memory and fewer
than 1024 links, and a write frame is one that its parser takes. -/
theorem deliver_ok_iff (hino : ∀ s, InRange (lastIno s + 1))
    (hr : Run Safe (mounted lastIno perm nextPtr table) N)
    (hbox : (N s).host.outbox = buf :: rest) :
    (∃ N', N.step (.deliver s newInode stale ip) = .ok N') ↔
      (buf.take 2 = tagCR → newInode = true ∧ (N (!s)).host.linkCount < tableSize) ∧
      (buf.take 2 = tagWR → ∃ req, parseWrite buf = .ok req) := by
  obtain ⟨S, hS⟩ := hr.refines hino
  rw [← (hS.shows (!s)).orderly.length_live, ← hS.pass_ok_iff hbox]
  simp only [step, hbox]
  exact Host.exists_map_ok

/-- The create frames that cross are both handled. -/
theorem deliver_ok_iff_crossed : ∃ N buf, crossed = .ok N ∧ (N false).host.outbox = [buf] ∧
    ((∃ N', N.step (.deliver false true zeroStack []) = .ok N') ↔
      (buf.take 2 = tagCR → true = true ∧ (N true).host.linkCount < tableSize) ∧
      (buf.take 2 = tagWR → ∃ req, parseWrite buf = .ok req)) := by
  have hval : crossed.toOption.map (fun N => decide ((N false).host.outbox.length = 1)) =
      some true := by
    decide
  obtain ⟨N, hN, hone⟩ := exists_of_toOption_map hval
  obtain ⟨buf, hbuf⟩ := List.length_eq_one_iff.mp (of_decide_eq_true hone)
  exact ⟨N, buf, hN, hbuf, deliver_ok_iff (by decide) (run_crossed hN) hbuf⟩

/-! ## all frames -/

/-- What it takes to handle all frames of a host: nothing is open on its peer,
and the peer has an entry of the table and an unused number for each of them. -/
structure Roomy (N : Net) (s : Bool) : Prop where
  closed : (N (!s)).host.files = []
  room : (N (!s)).host.table.live.length + (N s).host.outbox.length ≤ tableSize
  ahead : ∀ m, 1 ≤ m → m ≤ (N s).host.outbox.length →
    InRange ((N (!s)).host.lastIno + BitVec.ofNat 32 m) ∧
      ¬ (N (!s)).host.Uses ((N (!s)).host.lastIno + BitVec.ofNat 32 m)
  data : ∀ buf ∈ (N s).host.outbox, buf.take 2 = tagWR → ∃ req, parseWrite buf = .ok req

/-- A delivery that is safe. -/
def Delivery (N : Net) (a : Action) : Prop :=
  N.Safe a ∧ ∃ s newInode stale ip, a = .deliver s newInode stale ip

theorem Run.append {ok : Net → Action → Prop} {N₀ : Net} (hr : Run ok N₀ N) (hd : Run ok N N') :
    Run ok N₀ N' := by
  induction hd with
  | start => exact hr
  | step _ hok hstep ih => exact .step ih hok hstep

theorem Run.safe {N₀ : Net} (hd : Run Delivery N₀ N) : Run Safe N₀ N := by
  induction hd with
  | start => exact .start
  | step _ hok hstep ih => exact .step ih hok.1 hstep

/-- The peer may be given the oldest frame. -/
theorem Roomy.mayHandle (hroom : N.Roomy s) (hbox : (N s).host.outbox = buf :: rest) :
    N.MayHandle s buf := by
  refine ⟨fun _ => Host.freshIno_iff.mpr ?_, fun _ c _ d _ => ?_⟩
  · exact hroom.ahead 1 (Nat.le_refl 1) (by rw [hbox, List.length_cons]; omega)
  · rw [hroom.closed]
    exact List.not_mem_nil

/-- There is still room after a frame was handled. -/
theorem Roomy.step {h : Host} (hroom : N.Roomy s) (hbox : (N s).host.outbox = buf :: rest)
    (hcosts : Host.Costs (N (!s)).host h) (hs : (N' s).host.outbox = rest)
    (hpeer : (N' (!s)).host = h) : N'.Roomy s := by
  have hlen : (N s).host.outbox.length = rest.length + 1 := by rw [hbox, List.length_cons]
  have htotal := hroom.room
  have htable : tableSize = 1024 := rfl
  refine ⟨?_, ?_, fun m hm hle => ?_, fun b hb => ?_⟩
  · rw [hpeer, hcosts.files, hroom.closed]
  · rw [hpeer, hs]
    have hlive := hcosts.live
    omega
  · rw [hs] at hle
    rw [hpeer]
    obtain ⟨hsame, huses⟩ | ⟨hnext, huses⟩ := hcosts.drawn
    · rw [hsame]
      obtain ⟨hrange, hfree⟩ := hroom.ahead m hm (by omega)
      exact ⟨hrange, fun hu => hfree (huses _ hu)⟩
    · have hshift : h.lastIno + BitVec.ofNat 32 m =
          (N (!s)).host.lastIno + BitVec.ofNat 32 (m + 1) := by
        rw [hnext, BitVec.ofNat_add, BitVec.add_assoc, BitVec.add_comm (BitVec.ofNat 32 m)]
        rfl
      obtain ⟨hrange, hfree⟩ := hroom.ahead (m + 1) (Nat.le_add_left ..) (by omega)
      rw [hshift]
      refine ⟨hrange, fun hu => (huses _ hu).elim hfree fun heq => ?_⟩
      -- the number that was just drawn is not one of those to come
      rw [← hshift] at heq
      have hzero : BitVec.ofNat 32 m = 0 := by
        simpa using heq
      have hval := congrArg BitVec.toNat hzero
      rw [BitVec.toNat_ofNat] at hval
      have hmod : m % 2 ^ 32 = m := Nat.mod_eq_of_lt (by omega)
      rw [hmod] at hval
      simp at hval
      omega
  · rw [hs] at hb
    exact hroom.data b (hbox ▸ List.mem_cons_of_mem buf hb)

/-- The oldest frame is handled, and the outbox of the peer stays as it is. -/
theorem Refines.step_deliver (hS : N.Refines S) (hbox : (N s).host.outbox = buf :: rest)
    (hmay : N.MayHandle s buf)
    (hroom : buf.take 2 = tagCR → (N (!s)).host.table.live.length < tableSize)
    (hdata : buf.take 2 = tagWR → ∃ req, parseWrite buf = .ok req) (stale : Stale) (ip : Bytes) :
    ∃ N', N.step (.deliver s true stale ip) = .ok N' ∧
      N' s = { N s with host := { (N s).host with outbox := rest } } ∧
      Host.Costs (N (!s)).host (N' (!s)).host ∧
      (N' (!s)).host.outbox = (N (!s)).host.outbox := by
  obtain ⟨r, hok⟩ : ∃ r, (N (!s)).host.pass (.server true) stale ip buf = .ok r :=
    (hS.pass_ok_iff hbox).mpr ⟨fun hc => ⟨rfl, hroom hc⟩, hdata⟩
  refine ⟨Function.update
      (Function.update N s { N s with host := { (N s).host with outbox := rest } })
      (!s) { N (!s) with host := r.host }, ?_, ?_, ?_⟩
  · simp only [Net.step, hbox, hok, Except.map]
  · rw [Function.update_of_ne (by simp), Function.update_self]
  rw [Function.update_self]
  obtain ⟨m, q, hq, rfl, hsend, -⟩ | ⟨htag, -⟩ := (hS.shows s).pop hbox
  · obtain ⟨-, hears⟩ := hS.hears hq hsend hmay hok
    exact ⟨hears.costs, hears.outbox⟩
  · obtain ⟨g, hg, hgr⟩ := Refines.pass_write htag hok
    rw [hgr]
    obtain rfl | ⟨i, message, rfl⟩ := Host.rdmaWrite_cases hg
    · exact ⟨.refl _, rfl⟩
    · exact ⟨Host.costs_setInode i fun _ => ⟨rfl, rfl, rfl⟩, rfl⟩

/-- All frames of a host can be handled. -/
theorem drains (hino : ∀ s, InRange (lastIno s + 1))
    (hr : Run Safe (mounted lastIno perm nextPtr table) N) (hroom : N.Roomy s) (stale : Stale)
    (ip : Bytes) : ∃ N', Run Delivery N N' ∧
      N' s = { N s with host := { (N s).host with outbox := [] } } ∧
      (N' (!s)).host.outbox = (N (!s)).host.outbox := by
  induction hbox : (N s).host.outbox generalizing N with
  | nil => exact ⟨N, .start, by rw [← hbox], rfl⟩
  | cons buf rest ih =>
      obtain ⟨S, hS⟩ := hr.refines hino
      have hlen : (N s).host.outbox.length = rest.length + 1 := by rw [hbox, List.length_cons]
      have htotal := hroom.room
      obtain ⟨N₁, hstep, hone, hcosts, houtbox⟩ := hS.step_deliver hbox (hroom.mayHandle hbox)
        (fun _ => by omega) (hroom.data buf (hbox ▸ List.mem_cons_self)) stale ip
      have hsafe : N.Safe (.deliver s true stale ip) := fun b hb => by
        rw [hbox] at hb
        cases hb
        exact hroom.mayHandle hbox
      have hbox₁ : (N₁ s).host.outbox = rest := by rw [hone]
      obtain ⟨N', hrun, hs', hpeer'⟩ := ih (.step hr hsafe hstep)
        (hroom.step hbox hcosts hbox₁ rfl) hbox₁
      have hfirst : Run Delivery N N₁ := .step .start ⟨hsafe, s, true, stale, ip, rfl⟩ hstep
      refine ⟨N', hfirst.append hrun, ?_, ?_⟩
      · rw [hs', hone]
      · rw [hpeer', houtbox]

/-- **The hosts come to agree**: from every state of a safe run in which there is
room for all frames under way, they can be handled one after the other, and
then no frame is under way and both hosts have the same paths. -/
theorem converges (hino : ∀ s, InRange (lastIno s + 1))
    (hr : Run Safe (mounted lastIno perm nextPtr table) N) (hroom : ∀ s, N.Roomy s) :
    ∃ N', Run Delivery N N' ∧ (∀ s, (N' s).host.outbox = []) ∧
      ∀ path b, (N' false).host.Names path b ↔ (N' true).host.Names path b := by
  obtain ⟨N₁, hrun₁, hfalse, htrue⟩ := drains hino hr (hroom false) zeroStack []
  have hr₁ := hr.append hrun₁.safe
  have hroom₁ : N₁.Roomy true := by
    obtain ⟨hclosed, hlive, hahead, hdata⟩ := hroom true
    refine ⟨?_, ?_, ?_, ?_⟩
    all_goals rw [Bool.not_false] at htrue
    · rw [Bool.not_true, hfalse]
      exact hclosed
    · rw [Bool.not_true, hfalse, htrue]
      exact hlive
    · rw [Bool.not_true, hfalse, htrue]
      exact hahead
    · rw [htrue]
      exact hdata
  obtain ⟨N₂, hrun₂, htrue₂, hfalse₂⟩ := drains hino hr₁ hroom₁ zeroStack []
  have hempty : ∀ s, (N₂ s).host.outbox = [] := by
    intro s
    cases s with
    | false => rw [Bool.not_true] at hfalse₂; rw [hfalse₂, hfalse]
    | true => rw [htrue₂]
  obtain ⟨S, hS⟩ := (hr₁.append hrun₂.safe).refines hino
  refine ⟨N₂, hrun₁.append hrun₂, hempty, hS.names_iff fun s buf hbuf => ?_⟩
  rw [hempty s] at hbuf
  cases hbuf

/-- Each host has made a directory that the other has not heard of. -/
theorem converges_crossed : ∃ N, crossed = .ok N ∧ (∀ s, (N s).host.outbox ≠ []) ∧
    ∃ N', Run Delivery N N' ∧ (∀ s, (N' s).host.outbox = []) ∧
      ∀ path b, (N' false).host.Names path b ↔ (N' true).host.Names path b := by
  have hval : crossed.toOption.map (fun N => decide (∀ s, (N s).host.outbox.length = 1 ∧
      (N s).host.files = [] ∧ (N s).host.table.live.length = 0 ∧ (N s).host.FreshIno ∧
      ∀ buf ∈ (N s).host.outbox, buf.take 2 ≠ tagWR)) = some true := by
    decide +kernel
  obtain ⟨N, hN, hfacts⟩ := exists_of_toOption_map hval
  have hfacts := of_decide_eq_true hfacts
  refine ⟨N, hN, fun s hnil => ?_, converges (by decide) (run_crossed hN) fun s => ?_⟩
  · have hlen := (hfacts s).1
    rw [hnil] at hlen
    cases hlen
  · obtain ⟨hlen, -, -, -, hdata⟩ := hfacts s
    obtain ⟨-, hfiles, hlive, hfresh, -⟩ := hfacts (!s)
    refine ⟨hfiles, ?_, fun m hm hle => ?_, fun buf hbuf htag => absurd htag (hdata buf hbuf)⟩
    · rw [hlive, hlen]
      decide
    · obtain rfl : m = 1 := by omega
      exact Host.freshIno_iff.mp hfresh

end Net

end Wjfs
