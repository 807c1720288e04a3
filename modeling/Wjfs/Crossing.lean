import Wjfs.Progress
import Wjfs.Removal

/-!
# Wjfs.Crossing

Calls of the two hosts that cross.

A call is done before the peer has heard of it.  Two calls that are safe one by
one need not be so together: if both hosts make the same name, or one makes a
file in a directory that the other removes, then the frame that crosses the
other call is fatal.  `rdma_create` binds an inode to the dentry that it looked
up without asking whether it has one, and follows the parent that it found
without asking whether there is one.  In a safe run every create frame has its
parent and a free name there.
-/

namespace Wjfs

open Replica

/-- A name that a dentry of an orderly host has: a frame that wants to make a
link of that name in the same place runs into it. -/
theorem Host.Orderly.placeFault_taken {h : Host} {mine : Set Ptr} {p i j : Ptr} {d : Dentry}
    {x : Option Ptr × Dentry} {c : Control} (ho : h.Orderly mine) (hs : h.Sane)
    (hseat : h.Seat p d x i j) (newInode : Bool) (hparent : c.nameParent = x.2.dName)
    (hname : c.name = d.dName) :
    placeFault (.server newInode) h c = some (if newInode then .bug else .nullDeref) := by
  have hn := ho.tidy.sound.nodup
  obtain ⟨z, hz, rfl⟩ := Dcache.exists_of_mem_bare hseat.parent
  obtain ⟨⟨q, e⟩, he, heq⟩ := Dcache.exists_of_mem_bare hseat.mem
  cases heq
  have hptr : z.2.ptr = p := hseat.parentPtr
  have hres : h.resolveParent c.nameParent = some p := by
    rw [hparent, ← hptr]
    exact (ho.resolveParent hz : h.resolveParent z.2.dName = some z.2.ptr)
  have hino : h.dInode? p = some j := by
    rw [← hptr]
    exact (dInode?_of_mem hn hz).trans hseat.parentInode
  obtain ⟨l, hl, hdir⟩ := ho.tidy.dirs p e he
  obtain rfl := Option.some.inj (hino.symm.trans hl)
  obtain ⟨b, hb, hbe⟩ :=
    (resolvesTo_iff hs.held he).mpr (ho.tidy.ready.live p e he).1
  have hbi : b.dInode.isSome = true := by
    have hbm := Dcache.mem_nodes_of_dLookup hn hb
    have heq : ((some p, b) : Option Ptr × Dentry) = (some p, e) :=
      Forest.eq_of_mem_flat hn hbm he hbe
    cases heq
    exact (ho.tidy.ready.live p _ hbm).2.2.2
  have hok : ¬ (c.name = [] ∨ 47 ∈ c.name ∨ 0 ∈ c.name) := by
    rw [hname]
    exact (ho.plain p _ hseat.mem).isName
  have hlook : h.dcache.dLookup p c.name = some b := hname ▸ hb
  unfold placeFault
  simp only [hres, inodeOf?, hino, Option.map_some, if_neg hok, hlook]
  cases newInode <;> simp [Env.server, hdir, hbi]

namespace Net

variable {lastIno : Bool → CInt} {perm : Bool → BitVec 12} {nextPtr : Bool → Ptr}
  {table : Bool → Table} {N : Net} {s : Bool} {buf n name : Bytes} {rest path : List Bytes}
  {env : Env} {op : Op} {h : Host}

/-- A create frame that fails at the peer. -/
theorem step_deliver_of_create {f : Row} {newInode : Bool} {stale : Stale} {ip : Bytes} {e : Fault}
    (hbox : (N s).host.outbox = encode (.add f) :: rest)
    (herr : (N (!s)).host.rdmaCreate (.server newInode) (encode (.add f)) ip = .error e) :
    N.step (.deliver s newInode stale ip) = .error e := by
  have hpass := Refines.pass_add newInode stale ip (N (!s)).host f
  rw [herr] at hpass
  simp only [step, hbox]
  cases hok : (N (!s)).host.pass (.server newInode) stale ip (encode (.add f)) with
  | ok r =>
      rw [hok] at hpass
      cases hpass
  | error e' =>
      rw [hok] at hpass
      cases hpass
      rfl

/-- What a safe call that makes a file has done, if it succeeds. -/
theorem Refines.tells_of_call {S : State Bytes (CInt × CInt)} (hS : N.Refines S)
    (hsafe : N.Safe (.call s env op)) (hmakes : op.makes? = some (path, n))
    (hok : (N s).host.call env op = .ok (h, none)) :
    ∃ f : Row, f.name = n ∧ f.parent = path.getLast?.getD Host.rootName ∧
      Host.Tells (N s).mine (N s).host ((N s).become h).mine h (.add f) := by
  have ho := (hS.shows s).orderly
  obtain ⟨-, hconn, hmay, -⟩ := hsafe
  have hm := hmay _ hmakes
  obtain ⟨dir, di, mode, hq, hz, rfl⟩ := Host.created_of_call ho.tidy hmakes hok
  refine ⟨(N s).host.newRow dir di n mode, rfl, ?_, ho.tells_created hq hz hm.plain
    (fun x hx => ho.name_ne_of_not_live hm.free hx) hm.fresh hconn⟩
  simp only [Host.newRow, ho.dName?_of_walk (hS.shows s).sane hq.walk, Option.getD_some]

/-- **Two hosts that make the same name** in the same directory at the same
time: each call is safe on its own, and the frame of either host is the
`BUG_ON` of `d_instantiate` at the other. -/
theorem crossing_creates_fatal {h : Bool → Host} {env : Bool → Env} {op : Bool → Op}
    (hino : ∀ s, InRange (lastIno s + 1)) (hr : Run Safe (mounted lastIno perm nextPtr table) N)
    (hsafe : ∀ r, N.Safe (.call r (env r) (op r)))
    (hmakes : ∀ r, (op r).makes? = some (path, n))
    (hok : ∀ r, (N r).host.call (env r) (op r) = .ok (h r, none))
    (hbox : (N s).host.outbox = []) (stale : Stale) (ip : Bytes) :
    step (fun r => (N r).become (h r)) (.deliver s true stale ip) = .error .bug := by
  obtain ⟨S, hS⟩ := hr.refines hino
  obtain ⟨f, hname, hparent, htells⟩ := hS.tells_of_call (hsafe s) (hmakes s) (hok s)
  obtain ⟨g, hgname, hgparent, hgtells⟩ := hS.tells_of_call (hsafe !s) (hmakes !s) (hok !s)
  have hsane : (h (!s)).Sane := (hS.shows (!s)).sane.step (e := .call (env !s) (op !s))
    (congrArg (Except.map Prod.fst) (hok !s))
  -- the receiver has a file of that name there itself
  have hown : g ∈ (h (!s)).Owns ((N (!s)).become (h (!s))).mine :=
    hgtells.owns ▸ Set.mem_insert ..
  obtain ⟨i, -, p, d, x, j, hseat, hrow⟩ := hown
  have htaken := hgtells.orderly.placeFault_taken hsane hseat true
    (c := Row.control f) (hparent.trans (hgparent.symm.trans (congrArg File.parent hrow)))
    (hname.trans (hgname.symm.trans (congrArg File.name hrow)))
  have hsent : (h s).outbox = [encode (.add f)] := htells.outbox.trans (by rw [hbox]; rfl)
  refine step_deliver_of_create hsent ?_
  · rw [Host.rdmaCreate, htells.sendable.parse]
    exact (Host.rdmaCreateParsed_error_iff hsane (.server true) (Row.control f) ip).mpr
      (.inl htaken)

/-- Both make the directory `d` in the root, right after mounting. -/
theorem crossing_creates_fatal_root : ∃ h : Host,
    (∀ r, (pair r).host.call (.server true) (.mkdir [] [100] 0o755) = .ok (h, none)) ∧
    ∀ s stale ip,
      step (fun r => (pair r).become h) (.deliver s true stale ip) = .error .bug := by
  have hmk : ((pair true).host.call (.server true) (.mkdir [] [100] 0o755)).toOption.map
      (fun r => decide (r.2 = none)) = some true := by
    decide
  obtain ⟨⟨h, err⟩, hok, herr⟩ := exists_of_toOption_map hmk
  obtain rfl : err = none := of_decide_eq_true herr
  have hcall : ∀ r, (pair r).host.call (.server true) (.mkdir [] [100] 0o755) = .ok (h, none) :=
    fun _ => hok
  have hsafe : ∀ r, pair.Safe (.call r (.server true) (.mkdir [] [100] 0o755)) := fun r =>
    safe_of_makes rfl (by cases r <;> decide)
  exact ⟨h, hcall, fun s stale ip => crossing_creates_fatal (h := fun _ => h) (by decide) .start
    hsafe (fun _ => rfl) hcall (by cases s <;> decide) stale ip⟩

/-- What a safe call that removes a directory has done, if it succeeds: no
dentry has its name any more. -/
theorem Refines.gone_of_rmdir {S : State Bytes (CInt × CInt)} (hS : N.Refines S)
    (hsafe : N.Safe (.call s env (.rmdir path n)))
    (hok : (N s).host.call env (.rmdir path n) = .ok (h, none)) :
    ∀ x ∈ h.dcache.bare, x.2.dName ≠ n := by
  have ho := (hS.shows s).orderly
  obtain ⟨-, hconn, -, hmay⟩ := hsafe
  have hm := hmay (path, n) rfl
  obtain ⟨-, hne⟩ | ⟨-, dir, di, d, i, hname, hv, hi, hdir, h0, rfl⟩ :=
    Host.sysRmdir_cases ho.tidy (hS.removable hmay (path, n) rfl) hok
  · exact absurd rfl hne
  · obtain ⟨f, hf, hfname, htells⟩ := ho.tells_rmdired (hv.mem ho.tidy.sound.nodup) hv.inode hi
      hdir h0 (hm.owned dir di d i hv hname hi) (hm.closed dir di d hv hname) hconn
    exact fun x hx heq => htells.name_ne ho hf hx (heq.trans (hname.symm.trans hfname.symm))

/-- **A host that makes a file in a directory that its peer removes** at the
same time: each call is safe on its own, and the frame finds no parent. -/
theorem crossing_rmdir_fatal {h : Bool → Host} {env' : Env}
    (hino : ∀ s, InRange (lastIno s + 1)) (hr : Run Safe (mounted lastIno perm nextPtr table) N)
    (hmake : N.Safe (.call s env op)) (hmakes : op.makes? = some (path ++ [n], name))
    (hremove : N.Safe (.call (!s) env' (.rmdir path n)))
    (hok : (N s).host.call env op = .ok (h s, none))
    (hgone : (N (!s)).host.call env' (.rmdir path n) = .ok (h !s, none))
    (hbox : (N s).host.outbox = []) (newInode : Bool) (stale : Stale) (ip : Bytes) :
    step (fun r => (N r).become (h r)) (.deliver s newInode stale ip) = .error .nullDeref := by
  obtain ⟨S, hS⟩ := hr.refines hino
  obtain ⟨f, -, hparent, htells⟩ := hS.tells_of_call hmake hmakes hok
  have hnone := hS.gone_of_rmdir hremove hgone
  have hsane : (h (!s)).Sane := (hS.shows (!s)).sane.step (e := .call env' (.rmdir path n))
    (congrArg (Except.map Prod.fst) hgone)
  have hres : (h (!s)).resolveParent f.parent = none := by
    by_contra hsome
    obtain ⟨k, hk⟩ := Option.ne_none_iff_exists'.mp hsome
    obtain ⟨y, hy, hyn, -⟩ := Host.exists_of_resolveParent hsane.held.nodup hk
    refine hnone _ (Dcache.mem_bare_of_mem hy) (hyn.trans (hparent.trans ?_))
    rw [List.getLast?_concat]
    rfl
  have hsent : (h s).outbox = [encode (.add f)] := htells.outbox.trans (by rw [hbox]; rfl)
  refine step_deliver_of_create hsent ?_
  · rw [Host.rdmaCreate, htells.sendable.parse]
    refine (Host.rdmaCreateParsed_error_iff hsane (.server newInode) (Row.control f) ip).mpr
      (.inl ?_)
    unfold Host.placeFault
    rw [show (Row.control f).nameParent = f.parent from rfl, hres]

/-- The victim of a call is among the dentries of its name. -/
theorem mayRemove_of_mem {env : Env} {ino : Ptr} (hn : (N s).host.dcache.ptrs.Nodup)
    (hmine : ino ∈ (N s).mine) (hnone : (N (!s)).host.outbox = [])
    (hd : ∀ x ∈ (N s).host.dcache.nodes, x.2.dName = n →
      x.2.dInode = some ino ∧ x.2.ptr ∉ (N s).host.files) :
    N.MayRemove s env path n := by
  refine ⟨fun dir di d i hv hname hi => ?_, fun dir di d hv hname => ?_, ?_⟩
  · rw [← Option.some.inj ((hd _ (hv.mem hn) hname).1.symm.trans hi)]
    exact hmine
  · exact (hd _ (hv.mem hn) hname).2
  · rintro c ⟨buf, hbuf, -⟩
    rw [hnone] at hbuf
    cases hbuf

/-- The directory `d` is the own of the host that made it. -/
theorem mine_shared (hN : shared (.mkdir [] [100] 0o755) = .ok N) : 3 ∈ (N true).mine := by
  obtain ⟨N₁, hcall, hdeliver⟩ := bind_eq_ok hN
  have hnext : ((pair true).host.call (.server true) (.mkdir [] [100] 0o755)).toOption.map
      (fun r => decide (r.1.nextPtr = 4)) = some true := by
    decide
  obtain ⟨r, hr, hdraw⟩ := exists_of_toOption_map hnext
  have hstep : pair.step (.call true (.server true) (.mkdir [] [100] 0o755)) =
      .ok (Function.update pair true ((pair true).become r.1)) := by
    rw [step, hr]
    rfl
  obtain rfl := Except.ok.inj (hstep.symm.trans hcall)
  rw [mine_of_deliver hdeliver]
  exact .inr ⟨by decide, by rw [of_decide_eq_true hdraw]; decide⟩

/-- One host has made the directory `d` and the other has a link to it.  The
first removes it while the other makes the file `f` in it. -/
theorem crossing_rmdir_fatal_below : ∃ (N : Net) (h : Bool → Host), Run Safe pair N ∧
    (N false).host.call (.server true) (.create [[100]] [102] 0o644) = .ok (h false, none) ∧
    (N true).host.call (.server true) (.rmdir [] [100]) = .ok (h true, none) ∧
    ∀ newInode stale ip,
      step (fun r => (N r).become (h r)) (.deliver false newInode stale ip) =
        .error .nullDeref := by
  have hshared : (shared (.mkdir [] [100] 0o755)).toOption.map (fun N => decide
        ((N true).host.dcache.ptrs.Nodup ∧ N.MayMake false [[100]] [102] ∧
        (N false).host.outbox = [] ∧ (∀ x ∈ (N true).host.dcache.nodes, x.2.dName = [100] →
          x.2.dInode = some 3 ∧ x.2.ptr ∉ (N true).host.files) ∧
        ((N false).host.call (.server true) (.create [[100]] [102] 0o644)).toOption.map
          (fun r => r.2) = some none ∧
        ((N true).host.call (.server true) (.rmdir [] [100])).toOption.map
          (fun r => r.2) = some none)) = some true := by
    decide +kernel
  obtain ⟨N, hN, hval⟩ := exists_of_toOption_map hshared
  obtain ⟨hnodup, hmay, hbox, hvictim, hcreate, hrmdir⟩ := of_decide_eq_true hval
  have hr : Run Safe pair N := run_shared rfl (by decide) (by decide) hN
  have hmine := mine_shared hN
  have hmake : N.Safe (.call false (.server true) (.create [[100]] [102] 0o644)) :=
    safe_of_makes rfl hmay
  have hremove : N.Safe (.call true (.server true) (.rmdir [] [100])) :=
    ⟨.inr (.inr ⟨_, _, rfl⟩), rfl, fun x hx => (by cases hx),
      fun x hx => (by cases hx; exact mayRemove_of_mem hnodup hmine hbox hvictim)⟩
  obtain ⟨⟨h, err⟩, hok, herr⟩ := exists_of_toOption_map hcreate
  obtain ⟨⟨g, err'⟩, hgone, herr'⟩ := exists_of_toOption_map hrmdir
  obtain rfl : err = none := herr
  obtain rfl : err' = none := herr'
  have hfatal : ∀ newInode stale ip, step (fun r => (N r).become (cond r g h))
      (.deliver false newInode stale ip) = .error .nullDeref :=
    crossing_rmdir_fatal (h := fun r => cond r g h) (by decide) hr hmake rfl hremove hok hgone hbox
  exact ⟨N, fun r => cond r g h, hr, hok, hgone, hfatal⟩

/-! ## any interleaving -/

/-- What two hosts may do that do not look at what is under way: make files under
well-formed names, remove files that they made themselves, and handle frames. -/
def Mixed (N : Net) : Action → Prop
  | .call s env op => op.Plain ∧ env.connects = true ∧ (∀ x ∈ op.makes?, WellFormed x.2) ∧
      ∀ x ∈ op.removes?, ∀ dir di d i, (N s).host.Victim env x.1 dir di d → d.dName = x.2 →
        d.dInode = some i → i ∈ (N s).mine
  | .deliver .. => True
  | .openFile .. | .closeFile .. | .write .. | .read .. | .elsewhere .. => False

/-- The oldest frame of a host, if it makes a link, finds the parent that it names
and no file of the new name under it. -/
def FindsPlace (N : Net) (s : Bool) : Prop :=
  ∀ buf ∈ (N s).host.outbox.head?, buf.take 2 = tagCR →
    ∃ c ∈ (parseControl buf).toOption, ∃ p ∈ (N (!s)).host.resolveParent c.nameParent,
      ∀ d ∈ (N (!s)).host.dcache.dLookup p c.name, d.dInode = none

instance (N : Net) (s : Bool) : Decidable (N.FindsPlace s) := by
  unfold FindsPlace
  infer_instance

/-- **Create frames in a safe run**: in every state, with any frames under way,
the oldest frame of a host finds its parent and no file of the new name under
it, if it makes a link.  With memory for the inode the only way in which it can
fail is a table without a free entry. -/
theorem create_finds_place (hino : ∀ s, InRange (lastIno s + 1))
    (hr : Run Safe (mounted lastIno perm nextPtr table) N) (s : Bool) :
    N.FindsPlace s ∧ ∀ buf ∈ (N s).host.outbox.head?, buf.take 2 = tagCR → ∀ ip e,
      (N (!s)).host.rdmaCreate (.server true) buf ip = .error e →
        e = .outOfBounds ∧ tableSize ≤ (N (!s)).host.table.live.length := by
  obtain ⟨S, hS⟩ := hr.refines hino
  have hplace : ∀ buf ∈ (N s).host.outbox.head?, buf.take 2 = tagCR →
      ∃ c p i, parseControl buf = .ok c ∧ (N (!s)).host.Place c p i := by
    intro buf hbuf htag
    obtain ⟨rest, hbox⟩ := List.head?_eq_some_iff.mp hbuf
    obtain ⟨m, q, hq, rfl, hsend, -⟩ | ⟨hdata, -⟩ := (hS.shows s).pop hbox
    · cases m with
      | add f =>
          obtain ⟨p, i, hp⟩ := hS.place hq hsend
          exact ⟨_, p, i, hsend.parse, hp⟩
      | del f =>
          exact absurd htag (take_encode_del_ne (by decide))
    · exact absurd (htag.symm.trans hdata) (by decide)
  refine ⟨fun buf hbuf htag => ?_, fun buf hbuf htag ip e herr => ?_⟩
  · obtain ⟨c, p, i, hparse, hp⟩ := hplace buf hbuf htag
    exact ⟨c, mem_toOption.mpr hparse, p, hp.parent, hp.free⟩
  · obtain ⟨c, p, i, hparse, hp⟩ := hplace buf hbuf htag
    have hsane := (hS.shows (!s)).sane
    have hnone := (Host.placeFault_eq_none_iff hsane).mpr ⟨rfl, p, i, hp⟩
    rw [Host.rdmaCreate, hparse] at herr
    rcases (Host.rdmaCreateParsed_error_iff hsane _ c ip).mp herr with hfault | ⟨-, hfull, rfl⟩
    · rw [hnone] at hfault
      cases hfault
    · exact ⟨rfl, hfull⟩

/-- The create frames that cross find their places. -/
theorem create_finds_place_crossed : ∃ N, crossed = .ok N ∧ (N false).host.outbox ≠ [] ∧
    (N true).host.outbox ≠ [] ∧ ∀ s, N.FindsPlace s := by
  have hval : crossed.toOption.map (fun N => decide ((N false).host.outbox ≠ [] ∧
      (N true).host.outbox ≠ [])) = some true := by
    decide
  obtain ⟨N, hN, hfacts⟩ := exists_of_toOption_map hval
  obtain ⟨hfalse, htrue⟩ := of_decide_eq_true hfacts
  have hr : Run Safe pair N := run_crossed hN
  exact ⟨N, hN, hfalse, htrue, fun s => (create_finds_place (by decide) hr s).1⟩

/-- Both hosts make the directory `d`. -/
def sameName : Except Fault Net := do
  let N ← pair.step (.call false (.server true) (.mkdir [] [100] 0o755))
  N.step (.call true (.server true) (.mkdir [] [100] 0o755))

/-- One host makes a file in the directory `d`, which the other has made and now
removes. -/
def removedUnder : Except Fault Net := do
  let N ← shared (.mkdir [] [100] 0o755)
  let N ← N.step (.call false (.server true) (.create [[100]] [102] 0o644))
  N.step (.call true (.server true) (.rmdir [] [100]))

theorem mixed_of_makes {n : Bytes} (hop : op.makes? = some (path, n)) (hn : WellFormed n) :
    N.Mixed (.call s (.server true) op) := by
  refine ⟨Op.plain_of_makes hop, rfl, fun x hx => ?_, fun x hx => ?_⟩
  · obtain rfl := Option.some.inj (hop.symm.trans hx)
    exact hn
  · rw [Op.removes?_of_makes hop] at hx
    cases hx

theorem run_sameName (hN : sameName = .ok N) : Run Mixed pair N := by
  obtain ⟨N₁, h1, h2⟩ := bind_eq_ok hN
  exact .step (.step .start (mixed_of_makes rfl (by decide)) h1) (mixed_of_makes rfl (by decide)) h2

theorem run_removedUnder (hN : removedUnder = .ok N) : Run Mixed pair N := by
  obtain ⟨N₂, h2, hN⟩ := bind_eq_ok hN
  obtain ⟨N₃, h3, h4⟩ := bind_eq_ok hN
  have hmine := mine_shared h2
  have hval : (shared (.mkdir [] [100] 0o755)).toOption.map (fun N => decide
      ((N true).host.dcache.ptrs.Nodup ∧ ∀ x ∈ (N true).host.dcache.nodes, x.2.dName = [100] →
        x.2.dInode = some 3)) = some true := by
    decide
  rw [h2] at hval
  obtain ⟨hnodup, hvictim⟩ := of_decide_eq_true (Option.some.inj hval)
  obtain ⟨N₁, h1, h2⟩ := bind_eq_ok h2
  -- the call of the other host leaves the directory and its owner alone
  have hsame : N₃ true = N₂ true := by
    obtain ⟨r, -, rfl⟩ := map_eq_ok h3
    rfl
  have hrun₂ : Run Mixed pair N₂ :=
    .step (a := .deliver true true zeroStack [])
      (.step .start (mixed_of_makes rfl (by decide)) h1) trivial h2
  refine .step (.step hrun₂ (mixed_of_makes rfl (by decide)) h3) ?_ h4
  refine ⟨.inr (.inr ⟨_, _, rfl⟩), rfl, fun x hx => (by cases hx), ?_⟩
  rintro x ⟨⟩ dir di d i hv hname hi
  rw [hsame] at hv ⊢
  rw [← Option.some.inj ((hvictim _ (hv.mem hnodup) hname).symm.trans hi)]
  exact hmine

/-- Two interleavings in which a create frame is fatal: both hosts make the same
directory, and one makes a file in a directory that the other removes. -/
theorem create_finds_no_place :
    (∃ N, sameName = .ok N ∧ Run Mixed pair N ∧ ¬ N.FindsPlace true ∧
      N.step (.deliver true true zeroStack []) = .error .bug) ∧
    ∃ N, removedUnder = .ok N ∧ Run Mixed pair N ∧ ¬ N.FindsPlace false ∧
      N.step (.deliver false true zeroStack []) = .error .nullDeref := by
  have hsame : sameName.toOption.map (fun N => decide (¬ N.FindsPlace true ∧
      (N.step (.deliver true true zeroStack [])).map (fun _ => ()) = .error .bug)) = some true := by
    decide
  have hunder : removedUnder.toOption.map (fun N => decide (¬ N.FindsPlace false ∧
      (N.step (.deliver false true zeroStack [])).map (fun _ => ()) = .error .nullDeref)) =
        some true := by
    decide +kernel
  obtain ⟨N, hN, hfacts⟩ := exists_of_toOption_map hsame
  obtain ⟨N', hN', hfacts'⟩ := exists_of_toOption_map hunder
  obtain ⟨hno, herr⟩ := of_decide_eq_true hfacts
  obtain ⟨hno', herr'⟩ := of_decide_eq_true hfacts'
  exact ⟨⟨N, hN, run_sameName hN, hno, map_eq_error herr⟩,
    N', hN', run_removedUnder hN', hno', map_eq_error herr'⟩

end Net

end Wjfs
