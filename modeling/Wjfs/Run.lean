import Wjfs.Host.MakeLink

/-!
# Wjfs.Run

The runs of one host: any number of local calls, of control frames from the
peer and of numbers drawn by the other filesystems, in any order.

`Effect` says once what an event can do to a host in order.  What holds along
every run is proved from it, effect by effect.
-/

namespace Wjfs

/-! ## events -/

/-- A call that a process makes. -/
inductive Op where
  | lookup (path : List Bytes) (name : Bytes)
  | create (path : List Bytes) (name : Bytes) (perm : BitVec 12)
  | mknod (path : List Bytes) (name : Bytes) (special : Host.Special) (perm : BitVec 12)
  | mkdir (path : List Bytes) (name : Bytes) (perm : BitVec 12)
  | symlink (path : List Bytes) (name : Bytes)
  | link (oldPath : List Bytes) (oldName : Bytes) (path : List Bytes) (name : Bytes)
  | rename (oldPath : List Bytes) (oldName : Bytes) (newPath : List Bytes) (newName : Bytes)
  | unlink (path : List Bytes) (name : Bytes)
  | rmdir (path : List Bytes) (name : Bytes)

/-- The calls that make a file. -/
def Op.Makes : Op → Prop
  | .create .. | .mknod .. | .mkdir .. => True
  | _ => False

/-- What can happen to a host: a call, a control frame that the server thread
handles, or another filesystem's use of the counter that `new_inode` draws
numbers from. -/
inductive Event where
  | call (env : Env) (op : Op)
  | create (newInode : Bool) (buf ip : Bytes)
  | remove (buf : Bytes)
  | elsewhere (lastIno : CInt)

namespace Host

/-- Run a call. -/
def call (h : Host) (env : Env) : Op → Outcome
  | .lookup path name => h.sysLookup env path name
  | .create path name perm => h.sysCreate env path name perm
  | .mknod path name special perm => h.sysMknod env path name special perm
  | .mkdir path name perm => h.sysMkdir env path name perm
  | .symlink path name => h.sysSymlink env path name
  | .link oldPath oldName path name => h.sysLink env oldPath oldName path name
  | .rename oldPath oldName newPath newName => h.sysRename env oldPath oldName newPath newName
  | .unlink path name => h.sysUnlink env path name
  | .rmdir path name => h.sysRmdir env path name

/-- Let an event happen. -/
def step (h : Host) : Event → Except Fault Host
  | .call env op => (h.call env op).map Prod.fst
  | .create newInode buf ip => h.rdmaCreate (.server newInode) buf ip
  | .remove buf => h.rdmaRemove buf
  | .elsewhere lastIno => .ok { h with lastIno := lastIno }

/-- The states of a host that was mounted and then saw events that `ok` lets
through, none of which was fatal. -/
inductive Run (ok : Host → Event → Prop) : Host → Prop
  | mount (lastIno : CInt) (perm : BitVec 12) (nextPtr : Ptr) (table : Table) :
      Run ok (mounted lastIno perm nextPtr table)
  | step {h h' : Host} {e : Event} : Run ok h → ok h e → h.step e = .ok h' → Run ok h'

/-- Let events happen one after the other. -/
def play (h : Host) : List Event → Except Fault Host
  | [] => .ok h
  | e :: es => do (← h.step e).play es

/-- Events that `ok` lets through in any state prolong a run. -/
theorem Run.play {ok : Host → Event → Prop} {es : List Event} :
    ∀ {h h' : Host}, Run ok h → (∀ h, ∀ e ∈ es, ok h e) → h.play es = .ok h' → Run ok h' := by
  induction es with
  | nil =>
      intro h h' hr _ hp
      cases hp
      exact hr
  | cons e es ih =>
      intro h h' hr hok hp
      obtain ⟨g, hg, hp⟩ := bind_eq_ok hp
      exact ih (hr.step (hok h e (by simp)) hg) (fun h e he => hok h e (by simp [he])) hp

/-- A name is only removed by the host that owns the file, while nobody has it
open. -/
def OwnedRemoval (h : Host) : Event → Prop
  | .call env (.unlink path name) => h.Removable env path name
  | .call env (.rmdir path name) => h.Removable env path name
  | _ => True

/-- The flag of a remove frame fits the dentry that the frame resolves to. -/
def FlagFits (h : Host) : Event → Prop
  | .remove buf => ∀ c, parseControl buf = .ok c → h.FlagMatches c
  | _ => True

/-! ## runs of any events -/

section Sane

variable {h h' : Host} {env : Env} {e : Event} {op : Op} {err : Option Errno}

theorem call_grown (hs : h.Sane) (hok : h.call env op = .ok (h', err)) : ∃ N, Grown N h h' := by
  cases op with
  | lookup path name => exact ⟨_, sysLookup_grown hs hok⟩
  | create path name perm => exact ⟨_, sysCreate_grown hs hok⟩
  | mknod path name special perm => exact ⟨_, sysMknod_grown hs hok⟩
  | mkdir path name perm => exact ⟨_, sysMkdir_grown hs hok⟩
  | symlink path name => exact ⟨_, sysSymlink_grown hs hok⟩
  | link oldPath oldName path name => exact ⟨_, sysLink_grown hs hok⟩
  | rename oldPath oldName newPath newName => exact ⟨_, sysRename_grown hs hok⟩
  | unlink path name => exact ⟨_, sysUnlink_grown hs hok⟩
  | rmdir path name => exact ⟨_, sysRmdir_grown hs hok⟩

/-- The table plays no part. -/
theorem Sane.setTable (hs : h.Sane) (t : Table) : ({ h with table := t } : Host).Sane :=
  ⟨hs.held, hs.unmounted, hs.ptr_lt, hs.inode_lt, hs.dirs⟩

theorem Sane.step (hs : h.Sane) (hok : h.step e = .ok h') : h'.Sane := by
  cases e with
  | call env op =>
      obtain ⟨⟨g, err⟩, hcall, rfl⟩ := map_eq_ok hok
      obtain ⟨N, hg⟩ := call_grown hs hcall
      exact hg.sane
  | create newInode buf ip =>
      obtain ⟨c, -, hok⟩ := bind_eq_ok hok
      obtain ⟨r⟩ := rdmaCreateParsed_grown hs hok
      rw [r.eq]
      exact r.grown.sane.setTable _
  | remove buf =>
      obtain ⟨c, -, hok⟩ := bind_eq_ok hok
      exact (rdmaRemoveParsed_fades hs hok).sane (hs.setTable _)
  | elsewhere lastIno =>
      cases hok
      exact ⟨hs.held, hs.unmounted, hs.ptr_lt, hs.inode_lt, hs.dirs⟩

theorem sane_mounted (lastIno : CInt) (perm : BitVec 12) (nextPtr : Ptr) (table : Table) :
    (mounted lastIno perm nextPtr table).Sane := by
  have hnodes : (mounted lastIno perm nextPtr table).dcache.nodes =
      [(none, rootDentry nextPtr (nextPtr + 1))] := rfl
  have hnext : (mounted lastIno perm nextPtr table).nextPtr = nextPtr + 2 := rfl
  refine ⟨⟨?_, ?_, ?_, ?_⟩, ?_, ?_, ?_, ?_⟩
  · simp [mounted, Dcache.ptrs, Forest.keys]
  all_goals simp [hnodes, hnext, rootDentry, Dcache.Distinct]

/-- Whatever happens to a host, it stays sane. -/
theorem Run.sane {ok : Host → Event → Prop} (hr : Run ok h) : h.Sane := by
  induction hr with
  | mount lastIno perm nextPtr table => exact sane_mounted lastIno perm nextPtr table
  | step _ _ hok ih => exact ih.step hok

end Sane

/-! ## effects -/

variable {pin : Ptr → Nat} {h h' : Host} {env : Env} {e : Event} {op : Op} {err : Option Errno}

/-- The host with a new file, after the call that made it. -/
def created (h : Host) (env : Env) (dir di : Ptr) (name : Bytes) (mode : Mode) : Host :=
  let g := (h.made dir di name mode).send env (h.createFrame dir di name mode)
  if mode.isDir then g.setInode di Inode.incNlink else g

section Created

variable {dir di j : Ptr} {name : Bytes} {mode : Mode}

theorem dcache_created (h : Host) (env : Env) (dir di : Ptr) (name : Bytes) (mode : Mode) :
    (h.created env dir di name mode).dcache =
      h.dcache.plant dir ((liveDentry h.nextPtr name (h.nextPtr + 1)).withCount 1) := by
  unfold created
  split <;> simp [made, madeIn]

/-- The inode of the new file. -/
theorem inodes_created_new (hdi : di ≠ h.nextPtr + 1) :
    (h.created env dir di name mode).inodes (h.nextPtr + 1) = h.newInode di mode := by
  unfold created
  split <;> simp [setInode, made, madeIn, hdi.symm]

/-- The other inodes: a new directory links to its parent. -/
theorem inodes_created_old (hj : j ≠ h.nextPtr + 1) :
    (h.created env dir di name mode).inodes j =
      if j = di ∧ mode.isDir = true then (h.inodes j).incNlink else h.inodes j := by
  unfold created
  by_cases hdir : mode.isDir = true
  · by_cases hjd : j = di
    · subst hjd
      simp [hdir, setInode, made, madeIn, hj]
    · simp [hdir, setInode, made, madeIn, hj, hjd]
  · simp [hdir, made, madeIn, hj]

/-- Apart from the tree and the inodes, two addresses and a number are drawn. -/
theorem frame_created : (h.created env dir di name mode).root = h.root ∧
    (h.created env dir di name mode).files = h.files ∧
    (h.created env dir di name mode).table = h.table ∧
    (h.created env dir di name mode).nextPtr = h.nextPtr + 2 := by
  unfold created
  split <;> simp [setInode, made, madeIn]

theorem Tidy.created (ht : h.Tidy pin) (hdir : h.dInode? dir = some di)
    (hisdir : (h.inodes di).isDir = true) (hz : mode.fmt ≠ .zero) :
    (h.created env dir di name mode).Tidy (Function.update pin h.nextPtr 1) := by
  have hmade : ((h.made dir di name mode).send env (h.createFrame dir di name mode)).Tidy
      (Function.update pin h.nextPtr 1) := (ht.made hdir hisdir hz).send _
  unfold Host.created
  split
  · exact hmade.incNlink di
  · exact hmade

end Created

/-- What an event can do to a host. -/
inductive Effect (pin : Ptr → Nat) (h : Host) : Event → Host → Prop
  | noTrace {env : Env} {op : Op} {h' : Host} : h.NoTrace h' → Effect pin h (.call env op) h'
  | created {env : Env} {op : Op} {path : List Bytes} {name : Bytes} {dir di : Ptr} {mode : Mode} :
      op.Makes → h.NewName env path name dir di → mode.fmt ≠ .zero →
      Effect pin h (.call env op) (h.created env dir di name mode)
  | hardLinked {env : Env} {oldPath path : List Bytes} {oldName name : Bytes}
      {dir di k i : Ptr} : h.dInode? dir = some di → (h.inodes di).isDir = true →
      h.dInode? k = some i → (h.inodes i).isDir = false →
      Effect pin h (.call env (.link oldPath oldName path name)) (h.hardLinked dir name i)
  | renamed {env : Env} {oldPath newPath : List Bytes} {oldName newName : Bytes} {h' : Host}
      {p oi q ni i : Ptr} {d d' : Dentry} {gone : Option Dentry}
      {rest : List (Option Ptr × Dentry)} : Renamed pin h h' p oi q ni i d d' gone rest →
      Effect pin h (.call env (.rename oldPath oldName newPath newName)) h'
  | unlinked {env : Env} {path : List Bytes} {name : Bytes} {dir di i : Ptr} {d : Dentry} :
      (some dir, d) ∈ h.dcache.nodes → h.dInode? dir = some di → d.dInode = some i →
      (h.inodes i).isDir = false → h.isMyFile d.ptr = .ok true →
      Effect pin h (.call env (.unlink path name)) (h.unlinked env dir di i d)
  | rmdired {env : Env} {path : List Bytes} {name : Bytes} {dir di i : Ptr} {d : Dentry} :
      (some dir, d) ∈ h.dcache.nodes → h.dInode? dir = some di → d.dInode = some i →
      (h.inodes i).isDir = true → h.dcache.kids d.ptr = 0 → h.isMyFile d.ptr = .ok true →
      Effect pin h (.call env (.rmdir path name)) (h.rmdired env dir di i d)
  | linked {newInode : Bool} {buf ip : Bytes} {c : Control} {dir di : Ptr} {table : Table} :
      parseControl buf = .ok c → h.Linkable (.server newInode) c dir di →
      h.table.insert (h.linkEntry di c ip) = .ok table →
      Effect pin h (.create newInode buf ip) (h.linked dir di c table)
  | released {buf : Bytes} {c : Control} : parseControl buf = .ok c →
      Effect pin h (.remove buf) (h.released c)
  | forgotten {buf : Bytes} {c : Control} {p dir i : Ptr} {d : Dentry} :
      parseControl buf = .ok c → h.Resolved c p dir d i → h.dcache.kids d.ptr = 0 →
      Effect pin h (.remove buf) (h.forgotten c p dir d i)
  | elsewhere (lastIno : CInt) : Effect pin h (.elsewhere lastIno) { h with lastIno := lastIno }

/-- What a call does that is no rename. -/
theorem effect_of_call (ht : h.Tidy pin) (hown : h.OwnedRemoval (.call env op))
    (hop : ∀ o n p q, op ≠ .rename o n p q) (hok : h.call env op = .ok (h', err)) :
    Effect pin h (.call env op) h' := by
  cases op with
  | lookup path name => exact .noTrace (sysLookup_cases ht.ready hok)
  | symlink path name => exact .noTrace (sysSymlink_cases ht.ready hok)
  | create path name perm =>
      obtain ⟨hno, -⟩ | ⟨-, dir, di, hq, -, rfl⟩ := sysCreate_cases ht.ready hok
      · exact .noTrace hno
      · exact (.created trivial hq (by simp) :
          Effect pin h (.call env (.create path name perm))
            (h.created env dir di name ⟨.reg, perm⟩))
  | mknod path name special perm =>
      obtain ⟨hno, -⟩ | ⟨-, dir, di, hq, -, rfl⟩ := sysMknod_cases ht.ready hok
      · exact .noTrace hno
      · have hdir : (⟨special.fmt, perm⟩ : Mode).isDir = false := by cases special <;> rfl
        have heff : Effect pin h (.call env (.mknod path name special perm))
            (h.created env dir di name ⟨special.fmt, perm⟩) :=
          .created trivial hq (by cases special <;> simp [Special.fmt])
        simpa only [created, hdir, Bool.false_eq_true, if_false] using heff
  | mkdir path name perm =>
      obtain ⟨hno, -⟩ | ⟨-, dir, di, hq, -, rfl⟩ := sysMkdir_cases ht.ready hok
      · exact .noTrace hno
      · exact (.created trivial hq (by simp) :
          Effect pin h (.call env (.mkdir path name perm))
            (h.created env dir di name ⟨.dir, perm &&& 0o1777⟩))
  | link oldPath oldName path name =>
      obtain hno | ⟨-, dir, di, o, oi, d, i, hq, hv, -, hi, hfile, rfl⟩ :=
        sysLink_cases ht.ready hok
      · exact .noTrace hno
      · exact .hardLinked hq.inode hq.isDir
          ((dInode?_of_mem ht.sound.nodup (hv.mem ht.sound.nodup)).trans hi) hfile
  | rename o n p q => exact absurd rfl (hop o n p q)
  | unlink path name =>
      obtain ⟨hno, -⟩ | ⟨-, dir, di, d, i, hname, hv, hi, hfile, rfl⟩ := sysUnlink_cases ht hown hok
      · exact .noTrace hno
      · exact .unlinked (hv.mem ht.sound.nodup) hv.inode hi hfile (hown dir di d hv hname).1
  | rmdir path name =>
      obtain ⟨hno, -⟩ | ⟨-, dir, di, d, i, hname, hv, hi, hdir, h0, rfl⟩ :=
        sysRmdir_cases ht hown hok
      · exact .noTrace hno
      · exact .rmdired (hv.mem ht.sound.nodup) hv.inode hi hdir h0 (hown dir di d hv hname).1

/-- What a frame does that announces a new file. -/
theorem effect_of_create (ht : h.Tidy pin) {newInode : Bool} {buf ip : Bytes}
    (hok : h.rdmaCreate (.server newInode) buf ip = .ok h') :
    Effect pin h (.create newInode buf ip) h' := by
  obtain ⟨c, hc, hok⟩ := bind_eq_ok hok
  obtain ⟨dir, di, table, hl, hins, rfl⟩ := rdmaCreateParsed_cases ht.ready hok
  exact .linked hc hl hins

/-- What a frame does that announces a removal, its flag being right. -/
theorem effect_of_remove (ht : h.Tidy pin) (hfiles : h.files = []) {buf : Bytes}
    (hflag : h.FlagFits (.remove buf)) (hok : h.rdmaRemove buf = .ok h') :
    Effect pin h (.remove buf) h' := by
  obtain ⟨c, hc, hok⟩ := bind_eq_ok hok
  obtain heq | ⟨p, dir, d, i, hr, h0, heq⟩ :=
    rdmaRemoveParsed_cases ht (hflag c hc) fun d _ => by simp [hfiles]
  · rw [heq] at hok
    cases hok
    exact .released hc
  · rw [heq] at hok
    cases hok
    exact .forgotten hc hr h0

/-- **Everything that an event can do** to a host in order with no file open,
all of whose dentries are pinned. -/
theorem effect_of_step (ht : h.Tidy pin) (hpin : ∀ k ∈ h.dcache.ptrs, 1 ≤ pin k)
    (hfiles : h.files = []) (hown : h.OwnedRemoval e) (hflag : h.FlagFits e)
    (hok : h.step e = .ok h') : Effect pin h e h' := by
  cases e with
  | call env op =>
      obtain ⟨⟨g, err⟩, hcall, rfl⟩ := map_eq_ok hok
      by_cases hop : ∃ o n p q, op = .rename o n p q
      · obtain ⟨o, n, p, q, rfl⟩ := hop
        obtain hno | ⟨-, p, oi, q, ni, i, d, d', gone, rest, hr, -⟩ :=
          sysRename_cases ht hpin hfiles hcall
        · exact .noTrace hno
        · exact .renamed hr
      · exact effect_of_call ht hown (fun o n p q heq => hop ⟨o, n, p, q, heq⟩) hcall
  | create newInode buf ip => exact effect_of_create ht hok
  | remove buf => exact effect_of_remove ht hfiles hflag hok
  | elsewhere lastIno =>
      cases hok
      exact .elsewhere lastIno

/-! ## order along runs -/

/-- A freshly mounted host is in order. -/
theorem tidy_mounted (lastIno : CInt) (perm : BitVec 12) (nextPtr : Ptr) (table : Table) :
    (mounted lastIno perm nextPtr table).Tidy (mounted lastIno perm nextPtr table).onePin := by
  have hmem : ∀ {x}, x ∈ (mounted lastIno perm nextPtr table).dcache.nodes →
      x = (none, rootDentry nextPtr (nextPtr + 1)) := fun hx => by
    simpa [mounted, Dcache.nodes, Forest.flat] using hx
  have hnone : ∀ {p d}, (some p, d) ∈ (mounted lastIno perm nextPtr table).dcache.nodes → False :=
    fun hx => by cases hmem hx
  have hroot : (mounted lastIno perm nextPtr table).dInode? nextPtr = some (nextPtr + 1) := by
    simp [dInode?, dentryOf?, mounted, Dcache.node?, Forest.node?, Forest.flat, rootDentry]
  have hsound : (mounted lastIno perm nextPtr table).dcache.Sound nextPtr
      (mounted lastIno perm nextPtr table).opens (mounted lastIno perm nextPtr table).onePin := by
    refine ⟨List.nodup_singleton _, List.mem_singleton_self _, ?_, fun _ _ hx => (hnone hx).elim,
      ?_, ?_, if_pos rfl, fun _ _ hx => (hnone hx).elim⟩
    · intro x hx _
      rw [hmem hx]
      rfl
    · intro x hx
      rw [hmem hx]
      simp [mounted, rootDentry, opens, onePin, Dcache.kids, Dcache.nodes, Forest.flat]
    · intro x hx
      rw [hmem hx]
      simp [rootDentry]
  have hdir : ((mounted lastIno perm nextPtr table).inodes (nextPtr + 1)).isDir = true := rfl
  refine ⟨⟨hsound.nodup, hsound.pos, fun _ _ hx => (hnone hx).elim, ?_, ?_, ?_⟩, hsound, by
    simp [mounted], fun _ _ hx => (hnone hx).elim, ⟨_, hroot, hdir⟩, ?_⟩
  · intro x hx
    rw [hmem hx]
    exact Nat.lt_add_of_pos_right (by decide)
  · intro x hx i hi
    rw [hmem hx] at hi
    cases hi
    exact Nat.lt_succ_self _
  · intro x hx i hi
    exact ⟨rfl, rfl⟩
  · intro x hx y hy _ _ _ _
    rw [hmem hx, hmem hy]

/-- The pins of a host with one more dentry, pinned once. -/
theorem update_onePin {k : Ptr} (hk : k ≠ h.root) : Function.update h.onePin k 1 = h.onePin := by
  funext j
  by_cases hj : j = k
  · simp [hj, onePin, hk]
  · rw [Function.update_of_ne hj]

theorem one_le_onePin (k : Ptr) : 1 ≤ h.onePin k := by
  unfold onePin
  split <;> simp

theorem Tidy.nextPtr_ne_root (ht : h.Tidy pin) : h.nextPtr ≠ h.root := fun heq =>
  ht.ready.nextPtr_not_mem (heq ▸ ht.sound.root_mem)

theorem root_forgotten {c : Control} {p dir i : Ptr} {d : Dentry} :
    (h.forgotten c p dir d i).root = h.root ∧ (h.forgotten c p dir d i).files = h.files := by
  unfold forgotten
  split <;> exact ⟨rfl, rfl⟩

/-- No effect moves the root or opens a file. -/
theorem Effect.frame (he : Effect pin h e h') : h'.root = h.root ∧ h'.files = h.files := by
  cases he with
  | noTrace hno =>
      obtain ⟨n, -, rfl⟩ := hno
      exact ⟨rfl, rfl⟩
  | created hop hq hz => exact ⟨frame_created.1, frame_created.2.1⟩
  | renamed hr => exact ⟨hr.files_eq.2.1, hr.files_eq.1⟩
  | unlinked hd hdir hi hfile hmine => exact ⟨root_send .., files_send ..⟩
  | rmdired hd hdir hi hisdir h0 hmine => exact ⟨root_send .., files_send ..⟩
  | forgotten hc hr h0 => exact root_forgotten
  | elsewhere | hardLinked | linked | released => exact ⟨rfl, rfl⟩

/-- An effect leaves the host in order, every dentry pinned once. -/
theorem Effect.tidy (ht : h.Tidy h.onePin) (he : Effect h.onePin h e h') : h'.Tidy h'.onePin := by
  have hone : h'.onePin = h.onePin := by
    unfold onePin
    rw [he.frame.1]
  rw [hone]
  have hnew := update_onePin ht.nextPtr_ne_root
  cases he with
  | noTrace hno => exact ht.noTrace hno
  | elsewhere lastIno =>
      exact ht.within ht.sound (Dcache.Within.refl _) rfl (Nat.le_refl _) ht.file_lt
        fun _ _ _ _ => ⟨rfl, rfl, rfl⟩
  | created hop hq hz =>
      rw [← hnew]
      exact ht.created hq.inode hq.isDir hz
  | hardLinked hdir hisdir hi hfile =>
      rw [← hnew]
      exact ht.hardLinked hdir hisdir hi hfile
  | renamed hr => exact Tidy.renamed hr ht
  | unlinked hd hdir hi hfile hmine =>
      exact ht.unlinked hd (ht.kids_eq_zero ((dInode?_of_mem ht.sound.nodup hd).trans hi) hfile)
  | rmdired hd hdir hi hisdir h0 hmine => exact ht.rmdired hd h0 hi hisdir
  | linked hc hl hins =>
      rw [← hnew]
      exact ht.linked hl _
  | released hc => exact ht.released _
  | forgotten hc hr h0 => exact ht.forgotten hr h0

/-- **Order along a run**: with owned removals only and flags that fit, every
state is in order with every dentry pinned once and no file open. -/
theorem Run.tidy {ok : Host → Event → Prop} (hok : ∀ h e, ok h e → h.OwnedRemoval e ∧ h.FlagFits e)
    (hr : Run ok h) : h.Tidy h.onePin ∧ h.files = [] := by
  induction hr with
  | mount lastIno perm nextPtr table => exact ⟨tidy_mounted lastIno perm nextPtr table, rfl⟩
  | @step h h' e _ ho hstep ih =>
      obtain ⟨ht, hfiles⟩ := ih
      have he := effect_of_step ht (fun k _ => one_le_onePin k) hfiles (hok h e ho).1
        (hok h e ho).2 hstep
      exact ⟨he.tidy ht, he.frame.2.trans hfiles⟩

end Host

end Wjfs
