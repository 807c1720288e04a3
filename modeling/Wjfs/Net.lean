import Wjfs.Announce
import Wjfs.Delivery
import Wjfs.Reach
import Wjfs.RemoteWrite
import Wjfs.Server

/-!
# Wjfs.Net

Two hosts that tell each other of the files they make and remove.

A call is done before the other host has heard of it, and the frames that are
under way to a host lag behind what its peer has done.  `Net` has both hosts
and lets their calls, the reading and writing of files and the deliveries
happen in any order; the outbox of a host is the queue of its frames, those
that write to a file of the peer among them.  A read through a link waits for
its answer, so it has its turn when the frames before it are handled.

`Refines` ties the two together: the frames that are under way lead from the
links that a host has to the files that its peer owns.  It is the invariant of
`Replica`, for the rows of the hosts, and every safe run keeps it.
-/

namespace Wjfs

open Replica

/-- A host of a pair, and the inodes that it made for itself. -/
structure Party where
  host : Host
  mine : Set Ptr

/-- The host after an action of its own; what it drew it drew for itself. -/
def Party.become (p : Party) (h : Host) : Party where
  host := h
  mine := p.mine ∪ Set.Ico p.host.nextPtr h.nextPtr

theorem Party.become_of_nextPtr {p : Party} {h : Host} (hn : h.nextPtr = p.host.nextPtr) :
    p.become h = { p with host := h } := by
  rw [Party.become, hn, Set.Ico_self, Set.union_empty]

/-- The request that a read through a dentry sends to the peer, if it is a link. -/
def Host.asks (env : Env) (h : Host) (dentry : Ptr) : Option Bytes :=
  match h.isMyFile dentry with
  | .ok false => if env.connects then (h.wjfsClientRead dentry).toOption else none
  | _ => none

/-- The two hosts. -/
abbrev Net := Bool → Party

namespace Net

/-- What can happen: a call on a host, the delivery of the oldest frame of a
host to the other one, the opening, closing, reading and writing of files, and
other filesystems that draw numbers. -/
inductive Action where
  | call (s : Bool) (env : Env) (op : Op)
  | deliver (s : Bool) (newInode : Bool) (stale : Stale) (ip : Bytes)
  | openFile (s : Bool) (env : Env) (path : List Bytes) (name : Bytes)
  | closeFile (s : Bool) (dentry : Ptr)
  | write (s : Bool) (env : Env) (dentry : Ptr) (buf : Bytes) (ppos : Nat)
  | read (s : Bool) (env : Env) (k : CInt) (dentry : Ptr) (mem : Nat → UInt8) (len ppos : Nat)
      (newInode : Bool) (stale : Stale) (ip : Bytes)
  | elsewhere (s : Bool) (lastIno : CInt)

/-- Let it happen. -/
def step (N : Net) : Action → Except Fault Net
  | .call s env op =>
      ((N s).host.call env op).map fun r => Function.update N s ((N s).become r.1)
  | .deliver s newInode stale ip =>
      match (N s).host.outbox with
      | [] => .ok N
      | buf :: rest =>
          ((N (!s)).host.pass (.server newInode) stale ip buf).map fun r =>
            Function.update
              (Function.update N s { N s with host := { (N s).host with outbox := rest } })
              (!s) { N (!s) with host := r.host }
  | .openFile s env path name =>
      ((N s).host.sysOpen env path name).map fun r => Function.update N s ((N s).become r.1)
  | .closeFile s k => .ok (Function.update N s ((N s).become ((N s).host.sysClose k)))
  | .write s env dentry buf ppos =>
      ((N s).host.wjfsWrite env dentry buf ppos).map fun o => Function.update N s
        ((N s).become { o.host with outbox := o.host.outbox ++ o.wire.toList })
  | .read s env k dentry mem len ppos newInode stale ip =>
      match (N s).host.asks env dentry with
      | none =>
          ((N s).host.wjfsRead env (fun _ => .ok []) k dentry mem len ppos).map fun o =>
            Function.update N s ((N s).become o.host)
      | some frame =>
          match (N s).host.outbox with
          | [] => do
              let r ← (N (!s)).host.pass (.server newInode) stale ip frame
              let o ← (N s).host.wjfsRead env (fun _ => .ok (r.reply.getD [])) k dentry mem len ppos
              .ok (Function.update (Function.update N s ((N s).become o.host)) (!s)
                { N (!s) with host := r.host })
          | _ :: _ => .ok N
  | .elsewhere s lastIno =>
      .ok (Function.update N s ((N s).become { (N s).host with lastIno := lastIno }))

/-- Two hosts that were just mounted. -/
def mounted (lastIno : Bool → CInt) (perm : Bool → BitVec 12) (nextPtr : Bool → Ptr)
    (table : Bool → Table) : Net := fun s =>
  ⟨Host.mounted (lastIno s) (perm s) (nextPtr s) (table s), ∅⟩

/-- What becomes of two hosts by actions that `ok` lets through, none of which
is fatal. -/
inductive Run (ok : Net → Action → Prop) (N₀ : Net) : Net → Prop
  | start : Run ok N₀ N₀
  | step {N N' : Net} {a : Action} : Run ok N₀ N → ok N a → N.step a = .ok N' → Run ok N₀ N'

end Net

/-! ## calls -/

/-- The directory and the name of the file that a call makes. -/
def Op.makes? : Op → Option (List Bytes × Bytes)
  | .create path name _ | .mknod path name _ _ | .mkdir path name _ => some (path, name)
  | _ => none

/-- The directory and the name of the file that a call removes. -/
def Op.removes? : Op → Option (List Bytes × Bytes)
  | .unlink path name | .rmdir path name => some (path, name)
  | _ => none

theorem Op.removes?_of_makes {op : Op} {x : List Bytes × Bytes} (hop : op.makes? = some x) :
    op.removes? = none := by
  cases op <;> first | rfl | cases hop

theorem Op.plain_of_makes {op : Op} {x : List Bytes × Bytes} (hop : op.makes? = some x) :
    op.Plain := by
  cases op <;> first | exact .inl trivial | cases hop

/-- The frames that a call sends: that of the file which it makes or removes, or
none. -/
inductive Op.Sends (op : Op) : List Bytes → Prop
  | nothing : Op.Sends op []
  | made {path : List Bytes} {n : Bytes} {f : Row} :
      op.makes? = some (path, n) → Sendable f → f.name = n → Op.Sends op [encode (.add f)]
  | removed {path : List Bytes} {n : Bytes} {f : Row} :
      op.removes? = some (path, n) → Sendable f → f.name = n → Op.Sends op [encode (.del f)]

theorem Op.Sends.eq_nil_or_singleton {op : Op} {frames : List Bytes} (hs : op.Sends frames) :
    frames = [] ∨ ∃ buf, frames = [buf] := by
  cases hs with
  | nothing => exact .inl rfl
  | made | removed => exact .inr ⟨_, rfl⟩

namespace Host

variable {pin : Ptr → Nat} {h h' : Host} {mine : Set Ptr} {env : Env} {op : Op}
  {err : Option Errno} {path : List Bytes} {n : Bytes} {p i k dir link : Ptr} {d : Dentry}

/-- What a call that makes or removes a file can do, and what it reports. -/
inductive Changes (h : Host) (env : Env) (op : Op) : Host → Option Errno → Prop
  | noTrace {h' : Host} {e : Errno} : h.NoTrace h' → Changes h env op h' (some e)
  | created {path : List Bytes} {n : Bytes} {dir di : Ptr} {mode : Mode} :
      op.makes? = some (path, n) → h.NewName env path n dir di → mode.fmt ≠ .zero →
      Changes h env op (h.created env dir di n mode) none
  | unlinked {path : List Bytes} {dir di i : Ptr} {d : Dentry} :
      op.removes? = some (path, d.dName) → h.Victim env path dir di d → d.dInode = some i →
      (h.inodes i).isDir = false → Changes h env op (h.unlinked env dir di i d) none
  | rmdired {path : List Bytes} {dir di i : Ptr} {d : Dentry} :
      op.removes? = some (path, d.dName) → h.Victim env path dir di d → d.dInode = some i →
      (h.inodes i).isDir = true → h.dcache.kids d.ptr = 0 →
      Changes h env op (h.rmdired env dir di i d) none

theorem Changes.of_noTrace (hno : h.NoTrace h' ∧ err ≠ none) : h.Changes env op h' err := by
  obtain ⟨e, rfl⟩ := Option.ne_none_iff_exists'.mp hno.2
  exact .noTrace hno.1

theorem changes_of_call (ht : h.Tidy pin) (hop : op.Plain)
    (hrem : ∀ x ∈ op.removes?, h.Removable env x.1 x.2) (hok : h.call env op = .ok (h', err)) :
    h.Changes env op h' err := by
  cases op with
  | create path n perm =>
      obtain hno | ⟨rfl, dir, di, hq, -, rfl⟩ := sysCreate_cases ht.ready hok
      · exact .of_noTrace hno
      · exact (.created rfl hq (by simp) :
          h.Changes env (.create path n perm) (h.created env dir di n ⟨.reg, perm⟩) none)
  | mknod path n special perm =>
      obtain hno | ⟨rfl, dir, di, hq, -, rfl⟩ := sysMknod_cases ht.ready hok
      · exact .of_noTrace hno
      · have hdir : (⟨special.fmt, perm⟩ : Mode).isDir = false := by cases special <;> rfl
        have hmade : h.Changes env (.mknod path n special perm)
            (h.created env dir di n ⟨special.fmt, perm⟩) none :=
          .created rfl hq (by cases special <;> simp [Special.fmt])
        simpa only [created, hdir, Bool.false_eq_true, if_false] using hmade
  | mkdir path n perm =>
      obtain hno | ⟨rfl, dir, di, hq, -, rfl⟩ := sysMkdir_cases ht.ready hok
      · exact .of_noTrace hno
      · exact (.created rfl hq (by simp) : h.Changes env (.mkdir path n perm)
          (h.created env dir di n ⟨.dir, perm &&& 0o1777⟩) none)
  | unlink path n =>
      obtain hno | ⟨rfl, dir, di, d, i, rfl, hv, hi, hfile, rfl⟩ :=
        sysUnlink_cases ht (hrem (path, n) rfl) hok
      · exact .of_noTrace hno
      · exact .unlinked rfl hv hi hfile
  | rmdir path n =>
      obtain hno | ⟨rfl, dir, di, d, i, rfl, hv, hi, hdir, h0, rfl⟩ :=
        sysRmdir_cases ht (hrem (path, n) rfl) hok
      · exact .of_noTrace hno
      · exact .rmdired rfl hv hi hdir h0
  | lookup | symlink | link | rename =>
      rcases hop with hop | ⟨_, _, hop⟩ | ⟨_, _, hop⟩ <;> cases hop

/-- With memory for an inode a call that makes or removes a file returns. -/
theorem exists_call (ht : h.Tidy pin) (hop : op.Plain) (henv : env.newInode = true)
    (hrem : ∀ x ∈ op.removes?, h.Removable env x.1 x.2) : ∃ r, h.call env op = .ok r := by
  cases op with
  | create path n perm =>
      rw [call, sysCreate_eq]
      exact make_ok ht.ready _ (fun _ _ _ => rfl) henv
  | mknod path n special perm =>
      rw [call, sysMknod_eq]
      exact make_ok ht.ready _ (fun _ _ _ => rfl) henv
  | mkdir path n perm =>
      rw [call, sysMkdir_eq]
      exact make_ok ht.ready _ (fun _ _ _ => rfl) henv
  | unlink path n =>
      obtain ⟨r, hr, -⟩ := sysUnlink_eq ht (hrem (path, n) rfl)
      exact ⟨r, hr⟩
  | rmdir path n =>
      obtain ⟨r, hr, -⟩ := sysRmdir_eq ht (hrem (path, n) rfl)
      exact ⟨r, hr⟩
  | lookup | symlink | link | rename =>
      rcases hop with hop | ⟨_, _, hop⟩ | ⟨_, _, hop⟩ <;> cases hop

/-- A call that makes a file and reports success has made it. -/
theorem created_of_call (ht : h.Tidy pin) (hmakes : op.makes? = some (path, n))
    (hok : h.call env op = .ok (h', none)) : ∃ dir di mode, h.NewName env path n dir di ∧
      mode.fmt ≠ .zero ∧ h' = h.created env dir di n mode := by
  have hnone := Op.removes?_of_makes hmakes
  cases changes_of_call ht (Op.plain_of_makes hmakes)
    (fun x hx => by rw [hnone] at hx; cases hx) hok with
  | created hop hq hz =>
      obtain ⟨rfl, rfl⟩ := Prod.mk.inj (Option.some.inj (hop.symm.trans hmakes))
      exact ⟨_, _, _, hq, hz, rfl⟩
  | unlinked hop | rmdired hop =>
      rw [hnone] at hop
      cases hop

namespace Orderly

theorem exists_row (ho : Orderly mine h) (hd : (some p, d) ∈ h.dcache.nodes)
    (hi : d.dInode = some i) :
    ∃ f : Row, h.HasRow i f ∧ f.name = d.dName ∧ f.id.1 = h.number i := by
  obtain ⟨x, l, j, hs⟩ := ho.exists_seat (Dcache.mem_bare_of_mem hd)
  obtain rfl := Option.some.inj (hi.symm.trans hs.inode)
  exact ⟨_, ⟨p, _, x, j, hs, rfl⟩, rfl, rfl⟩

/-- `is_my_file` tells the files that the host made from its links. -/
theorem isMyFile_iff (ho : Orderly mine h) (hd : (some p, d) ∈ h.dcache.nodes)
    (hi : d.dInode = some i) : h.table.isMyFile (h.number i) = true ↔ i ∈ mine := by
  obtain ⟨f, hf, -, hid⟩ := ho.exists_row hd hi
  rw [Table.isMyFile_iff]
  constructor
  · intro hfree
    by_contra hlink
    obtain ⟨e, he, hloc⟩ := ho.link i hlink f hf
    exact hfree e he (hloc.trans hid)
  · intro hmine e he hloc
    obtain ⟨k, hk, r, hr, hrid⟩ := ho.entry e he
    obtain ⟨rfl, -⟩ := ho.hasRow_unique hr hf
      ((congrArg Prod.fst hrid).trans (hloc.trans hid.symm))
    exact hk hmine

theorem isMyFile_eq (ho : Orderly mine h) (hd : (some p, d) ∈ h.dcache.nodes)
    (hi : d.dInode = some i) : h.isMyFile d.ptr = .ok (h.table.isMyFile (h.number i)) := by
  have hino : h.dInode? d.ptr = some i := (dInode?_of_mem ho.tidy.sound.nodup hd).trans hi
  rw [isMyFile, inodeOf?, hino]
  rfl

/-- What `is_my_file` denies is a dentry below the root that has an entry. -/
theorem exists_seat_of_link (ho : Orderly mine h) (hlink : h.isMyFile link = .ok false) :
    ∃ p d x i j, (some p, d) ∈ h.dcache.nodes ∧ d.ptr = link ∧ h.Seat p (d.withCount 0) x i j ∧
      i ∉ mine ∧ ∃ e ∈ h.table.live, e.localIno = h.number i := by
  obtain ⟨i, hi⟩ := exists_dInode_of_isMyFile hlink
  obtain ⟨⟨q, d⟩, hd, hdi⟩ := Ready.exists_dentry hi
  have hdm := Dcache.mem_nodes_of_node? hd
  have hnot : h.table.isMyFile (h.number i) = false := by
    rw [isMyFile, inodeOf?, hi] at hlink
    exact Except.ok.inj hlink
  obtain ⟨e, he, hloc⟩ : ∃ e ∈ h.table.live, e.localIno = h.number i := by
    by_contra hnone
    have hmy := Table.isMyFile_iff.mpr fun e he heq => hnone ⟨e, he, heq⟩
    rw [hmy] at hnot
    cases hnot
  obtain ⟨l, hl, r, ⟨p, b, x, j, hs, rfl⟩, hid⟩ := ho.entry e he
  have heq := ho.eq_of_number hs.mem (Dcache.mem_bare_of_mem hdm) hs.inode hdi
    ((congrArg Prod.fst hid).trans hloc)
  cases heq
  obtain rfl := Option.some.inj (hs.inode.symm.trans hdi)
  exact ⟨p, d, x, l, j, hdm, Dcache.ptr_of_node? hd, hs, hl, e, he, hloc⟩

theorem dName?_of_mem (ho : Orderly mine h) {x : Option Ptr × Dentry} (hx : x ∈ h.dcache.nodes) :
    h.dName? x.2.ptr = some x.2.dName := by
  rw [dName?, dentryOf?, Dcache.node?_of_mem ho.tidy.sound.nodup hx]
  rfl

theorem dName?_root (ho : Orderly mine h) : h.dName? h.root = some rootName := by
  obtain ⟨x, hx, hxr⟩ := Forest.exists_mem_flat ho.tidy.sound.root_mem none
  rw [← hxr]
  have hname : x.2.dName = rootName := ho.root (Dcache.strip x) (Dcache.mem_bare_of_mem hx) hxr
  exact (ho.dName?_of_mem hx).trans (congrArg some hname)

/-- The name of the directory that a path leads to. -/
theorem dName?_of_walk (ho : Orderly mine h) (hs : h.Sane)
    (hw : h.walk env h.root path = .ok dir) :
    h.dName? dir = some (path.getLast?.getD rootName) := by
  have ha := atPath_of_walk_root hs hw
  rcases List.eq_nil_or_concat' path with rfl | ⟨pre, n, rfl⟩
  · rw [ha.nil_inv]
    exact ho.dName?_root
  · obtain ⟨p, d, -, hd, -, rfl, rfl⟩ := ha.snoc_inv
    rw [List.getLast?_concat]
    exact ho.dName?_of_mem hd

/-- A name that is not live is no dentry's. -/
theorem name_ne_of_not_live (ho : Orderly mine h) (hn : ¬ h.LiveName n)
    {x : Option Ptr × Dentry} (hx : x ∈ h.dcache.bare) : x.2.dName ≠ n := by
  obtain ⟨⟨q, d⟩, hy, rfl⟩ := Dcache.exists_of_mem_bare hx
  refine fun heq => hn ⟨(q, d), hy, ?_, heq⟩
  cases q with
  | none => exact .inl (ho.tidy.sound.top _ hy rfl)
  | some p =>
      obtain ⟨hu, -, -, hi⟩ := ho.tidy.ready.live p d hy
      exact .inr (positive_iff.mpr ⟨hi, hu⟩)

end Orderly

/-! ## contents -/

theorem Sane.setOutbox (hs : h.Sane) (q : List Bytes) : ({ h with outbox := q } : Host).Sane :=
  ⟨hs.held, hs.unmounted, hs.ptr_lt, hs.inode_lt, hs.dirs⟩

/-- Reading changes nothing but pages. -/
theorem host_wjfsRead {peer : Bytes → Except Fault Bytes} {c : CInt} {mem : Nat → UInt8}
    {len ppos : Nat} {o : ReadOutcome} (hok : h.wjfsRead env peer c k mem len ppos = .ok o) :
    o.host = h ∨ ∃ i, o.host = h.setInode i fun n => (n.genericFileAioRead len ppos).1 := by
  obtain ⟨mine, -, hok⟩ := bind_eq_ok hok
  split at hok
  · split at hok
    · cases hok
    next i _ =>
    cases hok
    exact .inr ⟨i, rfl⟩
  · obtain ⟨message, -, hok⟩ := bind_eq_ok hok
    cases hok
    exact .inl rfl

/-- Writing changes the contents of a file, or sends what is to be written. -/
theorem host_wjfsWrite {buf : Bytes} {ppos : Nat} {o : WriteOutcome}
    (hok : h.wjfsWrite env k buf ppos = .ok o) :
    (∃ i, o.host = h.setInode i (·.genericFileAioWrite buf ppos)) ∧ o.wire = none ∨
      o.host = h ∧ ∀ frame ∈ o.wire, frame.take 2 = tagWR := by
  obtain ⟨mine, -, hok⟩ := bind_eq_ok hok
  split at hok
  · split at hok
    · cases hok
    next i _ =>
    cases hok
    exact .inl ⟨⟨i, rfl⟩, rfl⟩
  · obtain ⟨message, -, hok⟩ := bind_eq_ok hok
    obtain ⟨wire, hwire, hok⟩ := bind_eq_ok hok
    cases hok
    refine .inr ⟨rfl, fun frame hframe => ?_⟩
    obtain rfl : wire = some frame := hframe
    obtain ⟨hfields, -, -⟩ := sendWrite_eq_some_iff.mp hwire
    obtain ⟨⟨ino, name, inoParent, nameParent⟩, -, hfields⟩ := bind_eq_ok hfields
    cases hfields
    rfl

/-- A frame that writes to a file changes its contents, if it finds one. -/
theorem rdmaWrite_cases {buf : Bytes} (hok : h.rdmaWrite buf = .ok h') :
    h' = h ∨ ∃ i message, h' = h.setInode i (putFileMessage message) := by
  obtain ⟨req, -, hok⟩ := bind_eq_ok hok
  split at hok
  · cases hok
    exact .inl rfl
  · split at hok
    · cases hok
    · cases hok
      exact .inr ⟨_, _, rfl⟩

theorem sameKind_read (n : Inode) (len ppos : Nat) :
    (n.genericFileAioRead len ppos).1.SameKind n := by
  unfold Inode.genericFileAioRead
  split
  · exact ⟨rfl, rfl, rfl⟩
  · exact ⟨rfl, rfl, rfl⟩

namespace Orderly

theorem quiet_wjfsRead (ho : Orderly mine h) {peer : Bytes → Except Fault Bytes} {c : CInt}
    {mem : Nat → UInt8} {len ppos : Nat} {o : ReadOutcome}
    (hok : h.wjfsRead env peer c k mem len ppos = .ok o) :
    Quiet mine h mine o.host ∧ o.host.nextPtr = h.nextPtr := by
  obtain heq | ⟨i, heq⟩ := host_wjfsRead hok
  · rw [heq]
    exact ⟨ho.quiet_refl, rfl⟩
  · rw [heq]
    exact ⟨ho.quiet_setInode i fun n => sameKind_read n len ppos, rfl⟩

theorem quiet_rdmaWrite (ho : Orderly mine h) {buf : Bytes} (hok : h.rdmaWrite buf = .ok h') :
    Quiet mine h mine h' := by
  obtain rfl | ⟨i, message, rfl⟩ := rdmaWrite_cases hok
  · exact ho.quiet_refl
  · exact ho.quiet_setInode i fun _ => ⟨rfl, rfl, rfl⟩

end Orderly

theorem take_asks {frame : Bytes} (ha : h.asks env k = some frame) : frame.take 2 = tagRD := by
  unfold asks at ha
  split at ha
  · split at ha
    · cases hread : h.wjfsClientRead k with
      | error e =>
          rw [hread] at ha
          cases ha
      | ok buf =>
          rw [hread] at ha
          cases ha
          obtain ⟨⟨ino, name, inoParent, nameParent⟩, -, hfields⟩ := bind_eq_ok hread
          cases hfields
          rfl
    · cases ha
  · cases ha

/-- Nothing lies in a tree that was just mounted. -/
theorem not_hasRow_mounted {lastIno : CInt} {perm : BitVec 12} {nextPtr : Ptr} {table : Table}
    {f : Row} : ¬ (mounted lastIno perm nextPtr table).HasRow k f := by
  rintro ⟨p, d, x, j, ⟨hd, -⟩, -⟩
  obtain ⟨y, hy, heq⟩ := Dcache.exists_of_mem_bare hd
  obtain rfl : y = (none, rootDentry nextPtr (nextPtr + 1)) := by
    simpa [mounted, Dcache.nodes, Forest.flat] using hy
  cases heq

theorem Orderly.of_mounted {lastIno : CInt} (perm : BitVec 12) (nextPtr : Ptr) (table : Table)
    (hino : InRange (lastIno + 1)) : Orderly ∅ (mounted lastIno perm nextPtr table) := by
  have hbare : (mounted lastIno perm nextPtr table).dcache.bare =
      [(none, (rootDentry nextPtr (nextPtr + 1)).withCount 0)] := rfl
  refine ⟨tidy_mounted .., ?_, ?_, ?_, ?_, ?_, fun i hi => hi.elim, ?_, ?_, ?_, ?_, ?_⟩
  · rw [hbare]
    intro x hx _
    rw [List.mem_singleton.mp hx]
    rfl
  · rw [hbare]
    exact List.nodup_singleton _
  · rw [hbare]
    exact List.nodup_singleton _
  · exact fun _ _ _ _ => hino
  · rw [hbare]
    intro p d hd
    simp at hd
  · intro e he
    simp [mounted] at he
  · exact fun k _ f hf => (not_hasRow_mounted hf).elim
  · simp [mounted]
  · simp [mounted]
  · simp [mounted]

end Host

/-! ## what keeps the hosts together -/

namespace Net

/-- A frame with this tag, that says `c`, is under way to a host. -/
def Incoming (N : Net) (s : Bool) (tag : Bytes) (c : Control) : Prop :=
  ∃ buf ∈ (N (!s)).host.outbox, buf.take 2 = tag ∧ parseControl buf = .ok c

/-- The host may make the file `n` in the directory at `path`: the name is well
formed, neither in use nor announced to the host, the directory is not about to
go, and the number that the file gets is fresh. -/
structure MayMake (N : Net) (s : Bool) (path : List Bytes) (n : Bytes) : Prop where
  plain : WellFormed n
  free : ¬ (N s).host.LiveName n
  fresh : (N s).host.FreshIno
  unannounced : ∀ c, N.Incoming s tagCR c → c.name ≠ n
  stays : ∀ c, N.Incoming s tagRM c → path.getLast? ≠ some c.name

theorem mem_toOption {ε α : Type*} {x : Except ε α} {a : α} : a ∈ x.toOption ↔ x = .ok a := by
  cases x with
  | error e => simp [Except.toOption]
  | ok b => simp [Except.toOption]

/-- Whether something holds of all frames under way can be read off the outbox. -/
theorem forall_incoming {N : Net} {s : Bool} {tag : Bytes} {P : Control → Prop} :
    (∀ c, N.Incoming s tag c → P c) ↔ ∀ buf ∈ (N (!s)).host.outbox, buf.take 2 = tag →
      ∀ c ∈ (parseControl buf).toOption, P c := by
  constructor
  · intro h buf hbuf htag c hc
    exact h c ⟨buf, hbuf, htag, mem_toOption.mp hc⟩
  · rintro h c ⟨buf, hbuf, htag, hp⟩
    exact h buf hbuf htag c (mem_toOption.mpr hp)

instance (N : Net) (s : Bool) (path : List Bytes) (n : Bytes) : Decidable (N.MayMake s path n) :=
  decidable_of_iff
    (WellFormed n ∧ ¬ (N s).host.LiveName n ∧ (N s).host.FreshIno ∧
      (∀ buf ∈ (N (!s)).host.outbox, buf.take 2 = tagCR →
        ∀ c ∈ (parseControl buf).toOption, c.name ≠ n) ∧
      ∀ buf ∈ (N (!s)).host.outbox, buf.take 2 = tagRM →
        ∀ c ∈ (parseControl buf).toOption, path.getLast? ≠ some c.name)
    ⟨fun ⟨h1, h2, h3, h4, h5⟩ => ⟨h1, h2, h3, forall_incoming.mpr h4, forall_incoming.mpr h5⟩,
      fun ⟨h1, h2, h3, h4, h5⟩ => ⟨h1, h2, h3, forall_incoming.mp h4, forall_incoming.mp h5⟩⟩

/-- The host may remove the file: it made it, nobody has it open, and no file
was announced to the host that belongs there. -/
structure MayRemove (N : Net) (s : Bool) (env : Env) (path : List Bytes) (n : Bytes) : Prop where
  owned : ∀ dir di d i, (N s).host.Victim env path dir di d → d.dName = n → d.dInode = some i →
    i ∈ (N s).mine
  closed : ∀ dir di d, (N s).host.Victim env path dir di d → d.dName = n →
    d.ptr ∉ (N s).host.files
  unwanted : ∀ c, N.Incoming s tagCR c → c.nameParent ≠ n

/-- The peer may be given the oldest frame of a host: the number that a new
link gets is fresh, and a link that goes is not open. -/
structure MayHandle (N : Net) (s : Bool) (buf : Bytes) : Prop where
  fresh : buf.take 2 = tagCR → (N (!s)).host.FreshIno
  closed : buf.take 2 = tagRM → ∀ c, parseControl buf = .ok c →
    ∀ d, (N (!s)).host.resolved? c = some d → d.ptr ∉ (N (!s)).host.files

instance (N : Net) (s : Bool) (buf : Bytes) : Decidable (N.MayHandle s buf) :=
  decidable_of_iff
    ((buf.take 2 = tagCR → (N (!s)).host.FreshIno) ∧
      (buf.take 2 = tagRM → ∀ c ∈ (parseControl buf).toOption,
        ∀ d ∈ (N (!s)).host.resolved? c, d.ptr ∉ (N (!s)).host.files))
    ⟨fun ⟨h1, h2⟩ => ⟨h1, fun ht c hc => h2 ht c (mem_toOption.mpr hc)⟩,
      fun ⟨h1, h2⟩ => ⟨h1, fun ht c hc => h2 ht c (mem_toOption.mp hc)⟩⟩

/-- The peer may be asked for the file of a link: what it answers does not begin
like another request. -/
def MayAsk (N : Net) (s : Bool) (env : Env) (dentry : Ptr) (stale : Stale) : Prop :=
  ∀ frame ∈ (N s).host.asks env dentry, ∀ reply, (N (!s)).host.rdmaRead stale frame = .ok reply →
    reply.take 2 ∉ [tagWR, tagCR, tagRM]

/-- What keeps the two hosts together. -/
def Safe (N : Net) : Action → Prop
  | .call s env op => op.Plain ∧ env.connects = true ∧
      (∀ x ∈ op.makes?, N.MayMake s x.1 x.2) ∧ ∀ x ∈ op.removes?, N.MayRemove s env x.1 x.2
  | .deliver s _ _ _ => ∀ buf ∈ (N s).host.outbox.head?, N.MayHandle s buf
  | .read s env _ dentry _ _ _ _ stale _ => N.MayAsk s env dentry stale
  | .openFile .. | .closeFile .. | .write .. | .elsewhere .. => True

instance (N : Net) (s newInode : Bool) (stale : Stale) (ip : Bytes) :
    Decidable (N.Safe (.deliver s newInode stale ip)) :=
  inferInstanceAs (Decidable (∀ buf ∈ (N s).host.outbox.head?, N.MayHandle s buf))

/-- A frame that makes or removes a link. -/
def isControl (buf : Bytes) : Bool := buf.take 2 == tagCR || buf.take 2 == tagRM

/-- A host has these files of its own, these links, and these messages are
under way from it, with frames in between that write to files. -/
structure Shows (p : Party) (own copies : Set Row) (queue : List (Msg Bytes (CInt × CInt))) :
    Prop where
  sane : p.host.Sane
  orderly : Host.Orderly p.mine p.host
  owns : p.host.Owns p.mine = own
  copies : p.host.Copies p.mine = copies
  outbox : p.host.outbox.filter isControl = queue.map encode
  data : ∀ buf ∈ p.host.outbox, isControl buf = true ∨ buf.take 2 = tagWR
  sendable : ∀ m ∈ queue, Sendable m.file

/-- The two hosts are in the state `S` of two sites, which keep together. -/
structure Refines (N : Net) (S : State Bytes (CInt × CInt)) : Prop where
  inv : S.Inv Host.rootName
  shows : ∀ s, Shows (N s) (S.own s) (S.copies s) (S.queue s)

namespace Shows

variable {p : Party} {own copies : Set Row} {queue queue' : List (Msg Bytes (CInt × CInt))}
  {h : Host} {mine : Set Ptr} {m : Msg Bytes (CInt × CInt)} {buf : Bytes} {rest : List Bytes}
  {env : Env} {k : Ptr}

theorem isControl_encode (m : Msg Bytes (CInt × CInt)) : isControl (encode m) = true := by
  cases m with
  | add f => rfl
  | del f => rfl

/-- A change that concerns neither the files nor the links. -/
theorem unchanged (hp : Shows p own copies queue) (hs : h.Sane)
    (hu : Host.Unchanged p.mine p.host mine h)
    (hbox : h.outbox.filter isControl = queue'.map encode)
    (hdata : ∀ buf ∈ h.outbox, isControl buf = true ∨ buf.take 2 = tagWR)
    (hsend : ∀ m ∈ queue', Sendable m.file) : Shows ⟨h, mine⟩ own copies queue' :=
  ⟨hs, hu.orderly, hu.owns.trans hp.owns, hu.copies.trans hp.copies, hbox, hdata, hsend⟩

theorem quiet (hp : Shows p own copies queue) (hs : h.Sane)
    (hq : Host.Quiet p.mine p.host mine h) : Shows ⟨h, mine⟩ own copies queue :=
  hp.unchanged hs hq.toUnchanged (hq.outbox ▸ hp.outbox) (hq.outbox ▸ hp.data) hp.sendable

theorem tells (hp : Shows p own copies queue) (hs : h.Sane)
    (ht : Host.Tells p.mine p.host (p.become h).mine h m) :
    Shows (p.become h) (apply own m) copies (queue ++ [m]) := by
  refine ⟨hs, ht.orderly, ht.owns.trans (by rw [hp.owns]), ht.copies.trans hp.copies, ?_, ?_, ?_⟩
  · rw [show (p.become h).host.outbox = h.outbox from rfl, ht.outbox, List.filter_append, hp.outbox,
      List.map_append, List.filter_cons_of_pos (isControl_encode m)]
    rfl
  · intro buf hbuf
    rw [show (p.become h).host.outbox = h.outbox from rfl, ht.outbox] at hbuf
    rcases List.mem_append.mp hbuf with hbuf | hbuf
    · exact hp.data buf hbuf
    · rw [List.mem_singleton.mp hbuf]
      exact .inl (isControl_encode m)
  · intro a ha
    rcases List.mem_append.mp ha with ha | ha
    · exact hp.sendable a ha
    · rw [List.mem_singleton.mp ha]
      exact ht.sendable

theorem hears (hp : Shows p own copies queue) (hs : h.Sane)
    (ht : Host.Hears p.mine p.host h m) :
    Shows { p with host := h } own (apply copies m) queue :=
  ⟨hs, ht.orderly, ht.owns.trans hp.owns, ht.copies.trans (by rw [hp.copies]),
    ht.outbox ▸ hp.outbox, ht.outbox ▸ hp.data, hp.sendable⟩

/-- A frame that writes to a file is sent. -/
theorem sends (hp : Shows p own copies queue) (hbuf : buf.take 2 = tagWR) :
    Shows { p with host := { p.host with outbox := p.host.outbox ++ [buf] } } own copies queue := by
  have hdata : isControl buf = false := by
    rw [isControl, hbuf]
    rfl
  refine hp.unchanged (hp.sane.setOutbox _) (hp.orderly.unchanged_outbox _) ?_ ?_ hp.sendable
  · rw [List.filter_append, hp.outbox, List.filter_cons_of_neg (by simp [hdata]), List.filter_nil,
      List.append_nil]
  · intro b hb
    rcases List.mem_append.mp hb with hb | hb
    · exact hp.data b hb
    · rw [List.mem_singleton.mp hb]
      exact .inr hbuf

/-- The oldest frame is handed over: it is that of the oldest message, or
writes to a file. -/
theorem pop (hp : Shows p own copies queue) (hbox : p.host.outbox = buf :: rest) :
    (∃ m q, queue = m :: q ∧ buf = encode m ∧ Sendable m.file ∧
      Shows { p with host := { p.host with outbox := rest } } own copies q) ∨
    buf.take 2 = tagWR ∧
      Shows { p with host := { p.host with outbox := rest } } own copies queue := by
  have hsame := hp.orderly.unchanged_outbox rest
  have hsane := hp.sane.setOutbox rest
  have hmem : ∀ b ∈ rest, b ∈ p.host.outbox := fun b hb => hbox ▸ List.mem_cons_of_mem buf hb
  have hfilter := hp.outbox
  rw [hbox] at hfilter
  by_cases hcontrol : isControl buf = true
  · rw [List.filter_cons_of_pos hcontrol] at hfilter
    obtain ⟨m, q, rfl, hm, hrest⟩ := List.map_eq_cons_iff.mp hfilter.symm
    exact .inl ⟨m, q, rfl, hm.symm, hp.sendable m List.mem_cons_self,
      hp.unchanged hsane hsame hrest.symm (fun b hb => hp.data b (hmem b hb))
        fun a ha => hp.sendable a (List.mem_cons_of_mem m ha)⟩
  · rw [List.filter_cons_of_neg hcontrol] at hfilter
    have htag := (hp.data buf (hbox ▸ List.mem_cons_self)).resolve_left hcontrol
    exact .inr ⟨htag, hp.unchanged hsane hsame hfilter (fun b hb => hp.data b (hmem b hb))
      hp.sendable⟩

theorem read (hp : Shows p own copies queue) {peer : Bytes → Except Fault Bytes} {c : CInt}
    {mem : Nat → UInt8} {len ppos : Nat} {o : ReadOutcome}
    (hok : p.host.wjfsRead env peer c k mem len ppos = .ok o) :
    Shows (p.become o.host) own copies queue := by
  obtain ⟨hquiet, hnext⟩ := hp.orderly.quiet_wjfsRead hok
  rw [Party.become_of_nextPtr hnext]
  exact hp.quiet (hp.sane.wjfsRead hok) hquiet

theorem write (hp : Shows p own copies queue) {ppos : Nat} {o : WriteOutcome}
    (hok : p.host.wjfsWrite env k buf ppos = .ok o) :
    Shows (p.become { o.host with outbox := o.host.outbox ++ o.wire.toList }) own copies queue := by
  have hsane := hp.sane.wjfsWrite hok
  obtain ⟨⟨i, hhost⟩, hwire⟩ | ⟨hhost, htag⟩ := Host.host_wjfsWrite hok
  · rw [hhost] at hsane ⊢
    rw [hwire, Option.toList_none, List.append_nil, Party.become_of_nextPtr]
    · have hquiet := hp.orderly.quiet_setInode i (F := (·.genericFileAioWrite buf ppos))
        fun _ => ⟨rfl, rfl, rfl⟩
      exact hp.quiet hsane hquiet
    · rfl
  · rw [hhost, Party.become_of_nextPtr]
    · cases hwire : o.wire with
      | none =>
          rw [Option.toList_none, List.append_nil]
          exact hp
      | some frame => exact hp.sends (htag frame hwire)
    · rfl

end Shows

namespace Refines

variable {N N' : Net} {S : State Bytes (CInt × CInt)} {s : Bool} {f : Row} {h : Host}
  {m : Msg Bytes (CInt × CInt)} {q : List (Msg Bytes (CInt × CInt))}

/-- A message under way is a frame under way. -/
theorem incoming_add (hr : N.Refines S) (hm : .add f ∈ S.queue (!s)) :
    N.Incoming s tagCR (Row.control f) := by
  refine ⟨encode (.add f), ?_, take_encode_add, ((hr.shows (!s)).sendable _ hm).parse⟩
  have hmem := List.mem_map_of_mem (f := encode) hm
  rw [← (hr.shows (!s)).outbox] at hmem
  exact List.mem_of_mem_filter hmem

theorem incoming_del (hr : N.Refines S) (hm : .del f ∈ S.queue (!s)) :
    N.Incoming s tagRM (Row.control f) := by
  refine ⟨encode (.del f), ?_, take_encode_del, ((hr.shows (!s)).sendable _ hm).parse⟩
  have hmem := List.mem_map_of_mem (f := encode) hm
  rw [← (hr.shows (!s)).outbox] at hmem
  exact List.mem_of_mem_filter hmem

/-- The tree of a site has the rows of the host. -/
theorem tree_eq (hr : N.Refines S) (s : Bool) :
    S.tree s = (N s).host.Owns (N s).mine ∪ (N s).host.Copies (N s).mine := by
  rw [State.tree, (hr.shows s).owns, (hr.shows s).copies]

/-- A host that shows the same as before. -/
theorem set {p : Party} (hr : N.Refines S) (hp : Shows p (S.own s) (S.copies s) (S.queue s)) :
    Refines (Function.update N s p) S := by
  refine ⟨hr.inv, fun r => ?_⟩
  by_cases hrs : r = s
  · subst hrs
    rw [Function.update_self]
    exact hp
  · rw [Function.update_of_ne hrs]
    exact hr.shows r

/-- Something that a host does not tell the other. -/
theorem quiet (hr : N.Refines S) (hs : h.Sane)
    (hq : Host.Quiet (N s).mine (N s).host ((N s).become h).mine h) :
    Refines (Function.update N s ((N s).become h)) S :=
  hr.set ((hr.shows s).quiet hs hq)

/-- A host makes a file and announces it. -/
theorem make (hr : N.Refines S) (hs : h.Sane)
    (ht : Host.Tells (N s).mine (N s).host ((N s).become h).mine h (.add f))
    (hc : S.CanMake s Host.rootName f) :
    Refines (Function.update N s ((N s).become h)) (S.make s f) := by
  refine ⟨hr.inv.make hc, fun r => ?_⟩
  by_cases hrs : r = s
  · subst hrs
    simp only [State.make, Function.update_self]
    exact (hr.shows r).tells hs ht
  · simp only [State.make, Function.update_of_ne hrs]
    exact hr.shows r

/-- A host drops a file and says so. -/
theorem drop (hr : N.Refines S) (hs : h.Sane)
    (ht : Host.Tells (N s).mine (N s).host ((N s).become h).mine h (.del f))
    (hc : S.CanDrop s f) :
    Refines (Function.update N s ((N s).become h)) (S.drop s f) := by
  refine ⟨hr.inv.drop hc, fun r => ?_⟩
  by_cases hrs : r = s
  · subst hrs
    simp only [State.drop, Function.update_self]
    exact (hr.shows r).tells hs ht
  · simp only [State.drop, Function.update_of_ne hrs]
    exact hr.shows r

/-- The other host handles the oldest message. -/
theorem deliver {p : Party} (hr : N.Refines S) (hq : S.queue s = m :: q)
    (hp : Shows p (S.own s) (S.copies s) q) (hs : h.Sane)
    (ht : Host.Hears (N (!s)).mine (N (!s)).host h m) :
    Refines (Function.update (Function.update N s p) (!s) { N (!s) with host := h })
      (S.deliver s m q) := by
  refine ⟨hr.inv.deliver hq, fun r => ?_⟩
  by_cases hrs : r = s
  · subst hrs
    have hne : r ≠ !r := by simp
    simp only [State.deliver, Function.update_self, Function.update_of_ne hne]
    exact hp
  · obtain rfl : r = !s := by cases r <;> cases s <;> simp_all
    simp only [State.deliver, Function.update_self, Function.update_of_ne hrs]
    exact (hr.shows (!s)).hears hs ht

/-! ## steps -/

variable {env : Env} {path : List Bytes} {n : Bytes} {dir di : Ptr} {d : Dentry} {op : Op}
  {err : Option Errno} {mode : Mode} {a : Action} {stale : Stale} {k : Ptr}

theorem canMake (hr : N.Refines S) (hm : N.MayMake s path n)
    (hq : (N s).host.NewName env path n dir di) :
    S.CanMake s Host.rootName ((N s).host.newRow dir di n mode) := by
  have ho := (hr.shows s).orderly
  have hparent : ((N s).host.newRow dir di n mode).parent = path.getLast?.getD Host.rootName := by
    simp only [Host.newRow, ho.dName?_of_walk (hr.shows s).sane hq.walk, Option.getD_some]
  refine ⟨fun g hg => ?_, fun g hg hid => ?_, ?_, fun g hg => hm.unannounced _ (hr.incoming_add hg),
    fun g hg heq => ?_⟩
  · rw [hr.tree_eq] at hg
    obtain ⟨i, r, ⟨p, e, x, j, hs, rfl⟩, hname, -⟩ := Host.Orderly.exists_hasRow hg
    rw [hname]
    exact ho.name_ne_of_not_live hm.free hs.mem
  · rw [← (hr.shows s).owns] at hg
    obtain ⟨i, -, p, e, x, j, hs, rfl⟩ := hg
    exact hm.fresh.number_ne hs.mem hs.inode (congrArg Prod.fst hid)
  · obtain ⟨z, hz, hzi⟩ := Host.Ready.exists_dentry hq.inode
    have hname : ((N s).host.newRow dir di n mode).parent = z.2.dName := by
      simp only [Host.newRow, Host.dName?, hz, Option.map_some, Option.getD_some]
    rw [hname, hr.tree_eq]
    exact (ho.parent_row (Dcache.mem_bare_of_mem (Dcache.mem_nodes_of_node? hz)) hzi
      hq.isDir).imp_right And.right
  · have hplain := ((hr.shows (!s)).sendable _ hg).name
    rw [hparent] at heq
    cases hlast : path.getLast? with
    | none =>
        rw [hlast] at heq
        exact hplain.ne_rootName heq
    | some b =>
        rw [hlast] at heq
        exact hm.stays _ (hr.incoming_del hg) (hlast.trans (congrArg some heq.symm))

theorem canDrop (hr : N.Refines S) (hm : N.MayRemove s env path n)
    (hd : (some dir, d) ∈ (N s).host.dcache.nodes) (hn : d.dName = n)
    (hf : f ∈ (N s).host.Owns (N s).mine) (hname : f.name = d.dName)
    (h0 : (N s).host.dcache.kids d.ptr = 0) : S.CanDrop s f := by
  have ho := (hr.shows s).orderly
  refine ⟨(hr.shows s).owns ▸ hf, fun _ g hg heq => ?_, fun _ g hg heq => ?_⟩
  · rw [hr.tree_eq] at hg
    obtain ⟨i, r, ⟨p, e, x, j, hs, rfl⟩, -, hparent, -⟩ := Host.Orderly.exists_hasRow hg
    -- the directory of that row is `d`
    have hx := ho.eq_of_name hs.parent (Dcache.mem_bare_of_mem hd)
      (hparent.symm.trans (heq.trans hname))
    have hp : p = d.ptr := hs.parentPtr.symm.trans (congrArg (fun v => v.2.ptr) hx)
    obtain ⟨⟨q, y⟩, hy, hye⟩ := Dcache.exists_of_mem_bare hs.mem
    obtain rfl : q = some p := congrArg Prod.fst hye
    have hpos := Dcache.kids_pos_of_mem hy
    rw [hp] at hpos
    omega
  · exact hm.unwanted _ (hr.incoming_add hg) (heq.trans (hname.trans hn))

/-- A file that may be removed can be. -/
theorem removable (hr : N.Refines S)
    (hremove : ∀ x ∈ op.removes?, N.MayRemove s env x.1 x.2) :
    ∀ x ∈ op.removes?, (N s).host.Removable env x.1 x.2 := by
  have ho := (hr.shows s).orderly
  intro x hx dir di d hv hname
  have hd := hv.mem ho.tidy.sound.nodup
  obtain ⟨i, hi⟩ := Option.isSome_iff_exists.mp (ho.tidy.ready.live dir d hd).2.2.2
  refine ⟨?_, (hremove x hx).closed dir di d hv hname⟩
  rw [ho.isMyFile_eq hd hi, (ho.isMyFile_iff hd hi).mpr ((hremove x hx).owned dir di d i hv
    hname hi)]

/-- A call that makes or removes a file. -/
theorem call (hr : N.Refines S) (hsafe : N.Safe (.call s env op))
    (hok : (N s).host.call env op = .ok (h, err)) :
    ∃ S' frames, Refines (Function.update N s ((N s).become h)) S' ∧
      h.outbox = (N s).host.outbox ++ frames ∧ op.Sends frames := by
  obtain ⟨hplain, hconn, hmake, hremove⟩ := hsafe
  have ho := (hr.shows s).orderly
  have hsane : h.Sane :=
    (hr.shows s).sane.step (e := .call env op) (congrArg (Except.map Prod.fst) hok)
  cases Host.changes_of_call ho.tidy hplain (hr.removable hremove) hok with
  | noTrace hno =>
      have hquiet := ho.quiet_noTrace hno
      exact ⟨S, [], hr.quiet hsane hquiet, by rw [hquiet.outbox, List.append_nil], .nothing⟩
  | created hop hq hz =>
      have hm := hmake _ hop
      have htells := ho.tells_created hq hz hm.plain
        (fun x hx => ho.name_ne_of_not_live hm.free hx) hm.fresh hconn
      exact ⟨_, _, hr.make hsane htells (hr.canMake hm hq), htells.outbox,
        .made hop htells.sendable rfl⟩
  | @unlinked path dir di i d hop hv hi hfile =>
      have hm := hremove _ hop
      have hd := hv.mem ho.tidy.sound.nodup
      have h0 := ho.tidy.kids_eq_zero ((Host.dInode?_of_mem ho.tidy.sound.nodup hd).trans hi) hfile
      obtain ⟨f, hf, hname, htells⟩ := ho.tells_unlinked hd hv.inode hi hfile
        (hm.owned dir di d i hv rfl hi) (hm.closed dir di d hv rfl) hconn
      exact ⟨_, _, hr.drop hsane htells (hr.canDrop hm hd rfl hf hname h0), htells.outbox,
        .removed hop htells.sendable hname⟩
  | @rmdired path dir di i d hop hv hi hdir h0 =>
      have hm := hremove _ hop
      have hd := hv.mem ho.tidy.sound.nodup
      obtain ⟨f, hf, hname, htells⟩ := ho.tells_rmdired hd hv.inode hi hdir h0
        (hm.owned dir di d i hv rfl hi) (hm.closed dir di d hv rfl) hconn
      exact ⟨_, _, hr.drop hsane htells (hr.canDrop hm hd rfl hf hname h0), htells.outbox,
        .removed hop htells.sendable hname⟩

/-- A create frame finds what it needs. -/
theorem addable (hr : N.Refines S) (hq : S.queue s = .add f :: q) :
    Addable Host.rootName ((N (!s)).host.Owns (N (!s)).mine) ((N (!s)).host.Copies (N (!s)).mine)
      f := by
  rw [(hr.shows (!s)).owns, (hr.shows (!s)).copies]
  exact hr.inv.fits hq

/-- So does a remove frame. -/
theorem deletable (hr : N.Refines S) (hq : S.queue s = .del f :: q) :
    Deletable ((N (!s)).host.Owns (N (!s)).mine) ((N (!s)).host.Copies (N (!s)).mine) f := by
  rw [(hr.shows (!s)).owns, (hr.shows (!s)).copies]
  exact hr.inv.fits hq

/-- A handler of the server. -/
theorem pass_add (newInode : Bool) (stale : Stale) (ip : Bytes) (h : Host) (f : Row) :
    (h.pass (.server newInode) stale ip (encode (.add f))).map Pass.host =
      h.rdmaCreate (.server newInode) (encode (.add f)) ip := by
  have hrd : (encode (.add f)).take 2 ≠ tagRD := take_encode_add_ne (by decide)
  have hrm : (encode (.add f)).take 2 ≠ tagRM := take_encode_add_ne (by decide)
  rw [Host.pass_other hrd hrm, Host.serve_other hrd, Pass.rest_create take_encode_add]
  cases h.rdmaCreate (.server newInode) (encode (.add f)) ip <;> rfl

theorem pass_del {newInode : Bool} {stale : Stale} {ip : Bytes} {f : Row} {r : Pass}
    (hok : h.pass (.server newInode) stale ip (encode (.del f)) = .ok r) :
    h.rdmaRemove (encode (.del f)) = .ok r.host := by
  have hrd : (encode (.del f)).take 2 ≠ tagRD := take_encode_del_ne (by decide)
  obtain ⟨hserve, -⟩ := Host.pass_eq_ok_iff.mp hok
  rw [Host.serve_other hrd, Pass.rest_remove take_encode_del] at hserve
  obtain ⟨g, hg, rfl⟩ := map_eq_ok hserve
  exact hg

theorem pass_write {newInode : Bool} {stale : Stale} {ip buf : Bytes} {r : Pass}
    (htag : buf.take 2 = tagWR) (hok : h.pass (.server newInode) stale ip buf = .ok r) :
    ∃ g, h.rdmaWrite buf = .ok g ∧ r.host = g := by
  have hrd : buf.take 2 ≠ tagRD := by rw [htag]; decide
  obtain ⟨hserve, -⟩ := Host.pass_eq_ok_iff.mp hok
  rw [Host.serve_other hrd, Pass.rest_write htag] at hserve
  obtain ⟨g, hg, rfl⟩ := map_eq_ok hserve
  exact ⟨g, hg, rfl⟩

/-- A host that answers a read request in a safe run stays as it is. -/
theorem host_of_asks (hmay : N.MayAsk s env k stale) {frame : Bytes}
    (hasks : (N s).host.asks env k = some frame) {newInode : Bool} {ip : Bytes} {r : Pass}
    (hok : (N (!s)).host.pass (.server newInode) stale ip frame = .ok r) :
    r.host = (N (!s)).host := by
  have htag := Host.take_asks hasks
  obtain ⟨hserve, -⟩ := Host.pass_eq_ok_iff.mp hok
  unfold Host.serve at hserve
  rw [if_pos htag] at hserve
  obtain ⟨reply, hreply, hserve⟩ := bind_eq_ok hserve
  rw [Pass.rest_none (hmay frame hasks reply hreply)] at hserve
  cases hserve
  rfl

/-- The host that handles the oldest message does what it says. -/
theorem hears (hr : N.Refines S) (hq : S.queue s = m :: q) (hsend : Sendable m.file)
    (hmay : N.MayHandle s (encode m)) {newInode : Bool} {stale : Stale} {ip : Bytes} {r : Pass}
    (hok : (N (!s)).host.pass (.server newInode) stale ip (encode m) = .ok r) :
    r.host.Sane ∧ Host.Hears (N (!s)).mine (N (!s)).host r.host m := by
  have ho := (hr.shows (!s)).orderly
  have hsane := (hr.shows (!s)).sane
  cases m with
  | add f =>
      have hcreate := pass_add newInode stale ip (N (!s)).host f
      rw [hok] at hcreate
      refine ⟨hsane.step (e := .create newInode (encode (.add f)) ip) hcreate.symm, ?_⟩
      rw [Host.rdmaCreate, hsend.parse] at hcreate
      obtain ⟨dir, di, table, hl, hins, heq⟩ :=
        Host.rdmaCreateParsed_cases ho.tidy.ready hcreate.symm
      rw [heq]
      exact ho.hears_linked (hr.addable hq) hsend.name (hmay.fresh take_encode_add) hl hins
  | del f =>
      have hremove := pass_del hok
      refine ⟨hsane.step (e := .remove (encode (.del f))) hremove, ?_⟩
      obtain ⟨g, hg, hears⟩ := ho.hears_forgotten (hr.deletable hq)
        (hmay.closed take_encode_del _ hsend.parse)
      rw [Host.rdmaRemove, hsend.parse] at hremove
      obtain rfl : r.host = g := Except.ok.inj (hremove.symm.trans hg)
      exact hears

/-- **A safe step** keeps the hosts together. -/
theorem step (hr : N.Refines S) (hsafe : N.Safe a) (hok : N.step a = .ok N') :
    ∃ S', N'.Refines S' := by
  cases a with
  | call s env op =>
      obtain ⟨⟨h, err⟩, hcall, rfl⟩ := map_eq_ok hok
      obtain ⟨S', -, hS', -⟩ := hr.call hsafe hcall
      exact ⟨S', hS'⟩
  | deliver s newInode stale ip =>
      unfold Net.step at hok
      cases hbox : (N s).host.outbox with
      | nil =>
          simp only [hbox] at hok
          cases hok
          exact ⟨S, hr⟩
      | cons buf rest =>
          simp only [hbox] at hok
          obtain ⟨r, hserve, rfl⟩ := map_eq_ok hok
          obtain ⟨m, q, hq, rfl, hsend, hpop⟩ | ⟨htag, hpop⟩ := (hr.shows s).pop hbox
          · have hmay := hsafe (encode m) (by rw [hbox]; rfl)
            obtain ⟨hs, hears⟩ := hr.hears hq hsend hmay hserve
            exact ⟨_, hr.deliver hq hpop hs hears⟩
          · obtain ⟨g, hwrite, rfl⟩ := pass_write htag hserve
            exact ⟨S, (hr.set hpop).set ((hr.shows (!s)).quiet
              ((hr.shows (!s)).sane.rdmaWrite hwrite)
              ((hr.shows (!s)).orderly.quiet_rdmaWrite hwrite))⟩
  | openFile s env path name =>
      obtain ⟨⟨h, err⟩, hopen, rfl⟩ := map_eq_ok hok
      exact ⟨S, hr.quiet ((hr.shows s).sane.sysOpen hopen)
        ((hr.shows s).orderly.quiet_sysOpen hopen)⟩
  | closeFile s k =>
      cases hok
      exact ⟨S, hr.quiet ((hr.shows s).sane.sysClose k) ((hr.shows s).orderly.quiet_sysClose k)⟩
  | write s env k buf ppos =>
      obtain ⟨o, hwrite, rfl⟩ := map_eq_ok hok
      exact ⟨S, hr.set ((hr.shows s).write hwrite)⟩
  | read s env c k mem len ppos newInode stale ip =>
      simp only [Net.step] at hok
      split at hok
      · obtain ⟨o, hread, rfl⟩ := map_eq_ok hok
        exact ⟨S, hr.set ((hr.shows s).read hread)⟩
      next frame hasks =>
      split at hok
      · obtain ⟨r, hserve, hok⟩ := bind_eq_ok hok
        obtain ⟨o, hread, hok⟩ := bind_eq_ok hok
        cases hok
        rw [host_of_asks hsafe hasks hserve]
        exact ⟨S, (hr.set ((hr.shows s).read hread)).set (hr.shows (!s))⟩
      · cases hok
        exact ⟨S, hr⟩
  | elsewhere s lastIno =>
      cases hok
      have hs := (hr.shows s).sane
      exact ⟨S, hr.quiet ⟨hs.held, hs.unmounted, hs.ptr_lt, hs.inode_lt, hs.dirs⟩
        ((hr.shows s).orderly.quiet_elsewhere lastIno)⟩

/-- Two hosts that were just mounted are in step. -/
theorem of_mounted {lastIno : Bool → CInt} (perm : Bool → BitVec 12) (nextPtr : Bool → Ptr)
    (table : Bool → Table) (hino : ∀ s, InRange (lastIno s + 1)) :
    Refines (mounted lastIno perm nextPtr table) ⟨fun _ => ∅, fun _ => ∅, fun _ => []⟩ := by
  refine ⟨.empty, fun s => ?_⟩
  have ho := Host.Orderly.of_mounted (perm s) (nextPtr s) (table s) (hino s)
  have hrow : ∀ {k f}, ¬ (Host.mounted (lastIno s) (perm s) (nextPtr s) (table s)).HasRow k f :=
    Host.not_hasRow_mounted
  refine ⟨Host.sane_mounted .., ho, ?_, ?_, rfl, (fun b hb => by cases hb), fun m hm => by cases hm⟩
  · exact Set.eq_empty_of_forall_notMem fun f ⟨_, _, hf⟩ => hrow hf
  · exact Set.eq_empty_of_forall_notMem fun f ⟨_, _, _, hf, _⟩ => hrow hf

end Refines

/-- The hosts keep together in every state of a safe run. -/
theorem Run.refines {lastIno : Bool → CInt} {perm : Bool → BitVec 12} {nextPtr : Bool → Ptr}
    {table : Bool → Table} {N : Net} (hino : ∀ s, InRange (lastIno s + 1))
    (hr : Run Safe (mounted lastIno perm nextPtr table) N) : ∃ S, N.Refines S := by
  induction hr with
  | start => exact ⟨_, .of_mounted perm nextPtr table hino⟩
  | step _ hsafe hok ih =>
      obtain ⟨S, hS⟩ := ih
      exact hS.step hsafe hok

/-! ## two fresh hosts -/

/-- Both hosts, freshly mounted. -/
def pair : Net := mounted (fun _ => 0) (fun _ => 0o755) (fun _ => 0) fun _ => Table.initial

theorem safe_of_makes {N : Net} {s : Bool} {op : Op} {path : List Bytes} {n : Bytes}
    (hop : op.makes? = some (path, n)) (hm : N.MayMake s path n) :
    N.Safe (.call s (.server true) op) := by
  refine ⟨Op.plain_of_makes hop, rfl, fun x hx => ?_, fun x hx => ?_⟩
  · obtain rfl := Option.some.inj (hop.symm.trans hx)
    exact hm
  · rw [Op.removes?_of_makes hop] at hx
    cases hx

/-- A delivery makes no file anybody's own. -/
theorem mine_of_deliver {N N' : Net} {s newInode : Bool} {stale : Stale} {ip : Bytes}
    (hok : N.step (.deliver s newInode stale ip) = .ok N') (r : Bool) :
    (N' r).mine = (N r).mine := by
  simp only [step] at hok
  split at hok
  · cases hok
    rfl
  · obtain ⟨a, -, rfl⟩ := map_eq_ok hok
    cases r <;> cases s <;> rfl

/-- One host has made a file, and the other has heard of it. -/
def shared (op : Op) : Except Fault Net :=
  (pair.step (.call true (.server true) op)).bind (·.step (.deliver true true zeroStack []))

/-- Both hosts have made a directory, and neither has heard of the other's. -/
def crossed : Except Fault Net :=
  (pair.step (.call false (.server true) (.mkdir [] [100] 0o755))).bind
    (·.step (.call true (.server true) (.mkdir [] [101] 0o755)))

theorem run_shared {op : Op} {n : Bytes} {N : Net} (hop : op.makes? = some ([], n))
    (hm : pair.MayMake true [] n)
    (hd : (pair.step (.call true (.server true) op)).toOption.map
      (fun N => decide (N.Safe (.deliver true true zeroStack []))) = some true)
    (hN : shared op = .ok N) : Run Safe pair N := by
  obtain ⟨N₁, h₁, hsafe⟩ := exists_of_toOption_map hd
  rw [shared, h₁] at hN
  exact .step (.step .start (safe_of_makes hop hm) h₁) (of_decide_eq_true hsafe) hN

theorem run_crossed {N : Net} (hN : crossed = .ok N) : Run Safe pair N := by
  have hfirst : (pair.step (.call false (.server true) (.mkdir [] [100] 0o755))).toOption.map
      (fun N => decide (N.MayMake true [] [101])) = some true := by
    decide
  obtain ⟨N₁, h₁, hmay⟩ := exists_of_toOption_map hfirst
  rw [crossed, h₁] at hN
  exact .step (.step .start (safe_of_makes rfl (by decide)) h₁)
    (safe_of_makes rfl (of_decide_eq_true hmay)) hN

end Net

end Wjfs
