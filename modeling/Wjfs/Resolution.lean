import Wjfs.Survival
import Wjfs.Tree

/-!
# Wjfs.Resolution

Where a create frame puts the file that it announces.

The frame names the directory by its last component alone, and `rdma_create`
takes the first dentry of that name that its search comes upon.  Names may
occur in several directories here, so that need not be the directory of the
sender, and need not even be a directory.
-/

namespace Wjfs

open FileTree

namespace Host

variable {h h' g g' : Host} {env : Env} {op : Op} {e : Event} {path q : List Bytes} {n : Bytes}
  {k dir di : Ptr} {d : Dentry} {b c : Bool} {mode : Mode}

/-! ## the root -/

/-- No effect renames the root. -/
theorem Effect.root_mem_bare (ht : h.Tidy h.onePin) (he : Effect h.onePin h e h')
    (hd : (none, d) ∈ h.dcache.bare) : (none, d) ∈ h'.dcache.bare := by
  have hn := ht.sound.nodup
  have hplant : ∀ {p i x}, h.dInode? p = some i → (none, d) ∈ (h.dcache.plant p x).bare := by
    intro p i x hp
    obtain ⟨z, hz, -⟩ := Ready.exists_dentry hp
    exact (Dcache.bare_plant hn (Dcache.mem_ptrs_of_node? hz)).mem_iff.mpr
      (List.mem_cons_of_mem _ hd)
  have hprune : ∀ {p x}, (some p, x) ∈ h.dcache.nodes → h.dcache.kids x.ptr = 0 →
      (none, d) ∈ (h.pruned p x.ptr).dcache.bare := by
    intro p x hx h0
    have hcons := (ht.bare_pruned hx h0 (one_le_onePin p)).mem_iff.mp hd
    refine (List.mem_cons.mp hcons).resolve_left ?_
    intro heq
    cases heq
  cases he with
  | noTrace hno =>
      obtain ⟨m, -, rfl⟩ := hno
      exact hd
  | created hop hq hz =>
      rw [dcache_created]
      exact hplant hq.inode
  | hardLinked hdir hisdir hi hfile => exact hplant hdir
  | linked hc hl hins => exact hplant hl.inode
  | renamed hr =>
      rcases hr.mem_bare.mp hd with heq | ⟨x, -, heq⟩ | hrest
      · cases heq
      · cases heq
      · exact hr.mem_bare_after.mpr (.inr hrest)
  | unlinked hx hdir hi hfile hmine =>
      have h0 := ht.kids_eq_zero ((dInode?_of_mem hn hx).trans hi) hfile
      rw [Host.unlinked, dcache_send]
      exact hprune hx h0
  | rmdired hx hdir hi hisdir h0 hmine =>
      rw [Host.rmdired, dcache_setInode, dcache_send]
      exact hprune hx h0
  | forgotten hc hres h0 =>
      rw [frame_forgotten.1]
      exact hprune hres.mem h0
  | released | elsewhere => exact hd

/-- The root has its name along every run. -/
theorem Run.dName?_root {ok : Host → Event → Prop}
    (hok : ∀ h e, ok h e → h.OwnedRemoval e ∧ h.FlagFits e) (hr : Run ok h) :
    h.dName? h.root = some rootName := by
  suffices hroot : ∃ d, (none, d) ∈ h.dcache.bare ∧ d.dName = rootName by
    obtain ⟨d, hd, hname⟩ := hroot
    obtain ⟨⟨_, x⟩, hx, heq⟩ := Dcache.exists_of_mem_bare hd
    cases heq
    have ht := (hr.tidy hok).1
    rw [← ht.sound.top _ hx rfl, dName?, dentryOf?, Dcache.node?_of_mem ht.sound.nodup hx]
    exact congrArg some hname
  induction hr with
  | mount lastIno perm nextPtr table =>
      exact ⟨(rootDentry nextPtr (nextPtr + 1)).withCount 0, List.mem_singleton_self _, rfl⟩
  | step hr ho hstep ih =>
      obtain ⟨d, hd, hname⟩ := ih
      obtain ⟨ht, hfiles⟩ := hr.tidy hok
      exact ⟨d, (effect_of_step ht (fun k _ => one_le_onePin k) hfiles (hok _ _ ho).1
        (hok _ _ ho).2 hstep).root_mem_bare ht hd, hname⟩

/-- The name of the dentry at a path is the last component. -/
theorem AtPath.dName? (hn : h.dcache.ptrs.Nodup) (hroot : h.dName? h.root = some rootName)
    (ha : h.AtPath path k) : h.dName? k = some (path.getLast?.getD rootName) := by
  cases ha with
  | root => exact hroot
  | @child _ p d _ hd hpos =>
      rw [List.getLast?_concat, Host.dName?, dentryOf?, Dcache.node?_of_mem hn hd]
      rfl

/-! ## one file more -/

/-- A host that makes a file shows what it showed, and the file. -/
theorem Advances.names_iff (ha : Advances h h' (.make path n b)) :
    h'.Names q c ↔ h.Names q c ∨ q = path ++ [n] ∧ c = b := by
  obtain ⟨T, T', hT, hT', hstep⟩ := ha
  rw [hT.names_iff, hT'.names_iff]
  exact hstep.make_iff

/-- Nothing had the name before. -/
theorem Advances.not_names (ha : Advances h h' (.make path n b)) : ¬ h.Names (path ++ [n]) c := by
  obtain ⟨T, T', hT, -, hstep⟩ := ha
  rw [hT.names_iff]
  rintro ⟨i, hi⟩
  exact hstep.free_of_make i c hi

/-- Two hosts that agreed and make one file of one name agree again if and only
if they make it in the same directory. -/
theorem Advances.samePaths_iff {path' : List Bytes} (hsame : SamePaths h g)
    (ha : Advances h h' (.make path n b)) (hb : Advances g g' (.make path' n b)) :
    SamePaths h' g' ↔ path' = path := by
  constructor
  · intro hsame'
    have hnew : g'.Names (path ++ [n]) b :=
      (hsame' _ _).mp (ha.names_iff.mpr (.inr ⟨rfl, rfl⟩))
    rcases hb.names_iff.mp hnew with hold | ⟨heq, -⟩
    · exact absurd ((hsame _ _).mpr hold) ha.not_names
    · exact (List.append_cancel_right heq).symm
  · rintro rfl q c
    rw [ha.names_iff, hb.names_iff, hsame q c]

/-! ## the frame -/

/-- A directory in which nothing has the name is a place for it. -/
theorem Tidy.place {pin : Ptr → Nat} {i : Ptr} {c : Control} (ht : g.Tidy pin) (hs : g.Sane)
    (hn : WellFormed c.name) (hres : g.resolveParent c.nameParent = some k) (hk : g.AtPath path k)
    (hi : g.dInode? k = some i) (hdir : (g.inodes i).isDir = true)
    (hnew : ∀ b, ¬ g.Names (path ++ [c.name]) b) : g.Place c k i := by
  obtain ⟨x, hx, hxi⟩ := Ready.exists_dentry hi
  have halive := (ht.ready.alive x (Dcache.mem_nodes_of_node? hx) i hxi).1
  refine ⟨hres, hi, hdir, hn.isName, fun d hd => ?_,
    fun _ => ⟨halive, Nat.le_trans hn.2.1 (by decide)⟩⟩
  by_contra hsome
  obtain ⟨j, hj⟩ := Option.ne_none_iff_exists'.mp hsome
  have hdi : g.dInode? d.ptr = some j :=
    (dInode?_of_mem ht.sound.nodup (Dcache.mem_nodes_of_dLookup ht.sound.nodup hd)).trans hj
  exact hnew _ ⟨_, j, atPath_of_dLookup hs hk hd hj, hdi, rfl⟩

section Run

variable {ok : Host → Event → Prop}
  (hok : ∀ h e, ok h e → h.OwnedRemoval e ∧ h.FlagFits e) (hr : Run ok h)
include hok hr

/-- What a call that made a file did, and the name of the directory in its
frame. -/
theorem made_of_call (hmakes : op.makes? = some (path, n))
    (hcall : h.call env op = .ok (h', none)) : ∃ dir di mode, h.NewName env path n dir di ∧
      h.AtPath path dir ∧ Advances h h' (.make path n mode.isDir) ∧
      h' = h.created env dir di n mode ∧
      (h.newRow dir di n mode).parent = path.getLast?.getD rootName := by
  obtain ⟨ht, -⟩ := hr.tidy hok
  have hs' : h'.Sane := hr.sane.step (e := .call env op) (congrArg (Except.map Prod.fst) hcall)
  obtain ⟨dir, di, mode, hq, hz, rfl⟩ := created_of_call ht hmakes hcall
  have hat := atPath_of_walk_root hr.sane hq.walk
  refine ⟨dir, di, mode, hq, hat, advances_created ht hr.sane hs' hq hz, rfl, ?_⟩
  rw [newRow, hat.dName? ht.sound.nodup (hr.dName?_root hok), Option.getD_some]

variable (hr' : Run ok g)
include hr'

/-- **A create frame keeps two hosts in agreement** if and only if the search for
the last component of the directory's path ends, at the receiver, at that
path. -/
theorem create_agrees_iff (hsame : SamePaths h g) (hmakes : op.makes? = some (path, n))
    (hconn : env.connects = true) (hn : WellFormed n)
    (hpath : ∀ m, path.getLast? = some m → WellFormed m) (hino : InRange (h.lastIno + 1))
    (hdir : ∀ k i, h.AtPath path k → h.dInode? k = some i → InRange (h.number i))
    (hcall : h.call env op = .ok (h', none)) :
    ∃ frame, h'.outbox = h.outbox ++ [frame] ∧ ∀ newInode ip g',
      g.rdmaCreate (.server newInode) frame ip = .ok g' →
        (SamePaths h' g' ↔
          ∃ p, g.resolveParent (path.getLast?.getD rootName) = some p ∧ g.AtPath path p) := by
  obtain ⟨ht', -⟩ := hr'.tidy hok
  obtain ⟨dir, di, mode, hq, hat, hadv, rfl, hparent⟩ := made_of_call hok hr hmakes hcall
  have hsend : Sendable (h.newRow dir di n mode) := by
    refine ⟨hn, ?_, hino, hdir dir di hat hq.inode⟩
    rw [hparent]
    cases hlast : path.getLast? with
    | none => exact .inl rfl
    | some m => exact .inr (hpath m hlast)
  refine ⟨_, outbox_created hconn, fun newInode ip g' hframe => ?_⟩
  have hgs : g'.Sane :=
    hr'.sane.step (e := .create newInode (encode (.add (h.newRow dir di n mode))) ip) hframe
  rw [rdmaCreate, Sendable.parse (m := .add (h.newRow dir di n mode)) hsend] at hframe
  obtain ⟨p, pi, table, hl, -, rfl⟩ := rdmaCreateParsed_cases ht'.ready hframe
  obtain ⟨path', hat'⟩ := ht'.exists_atPath hl.inode
  have hb := advances_linked ht' hr'.sane hgs hl hat'
  rw [Row.isDir_linkMode] at hb
  have hres : g.resolveParent (path.getLast?.getD rootName) = some p := hparent ▸ hl.parent
  rw [hadv.samePaths_iff hsame hb]
  constructor
  · rintro rfl
    exact ⟨p, hres, hat'⟩
  · rintro ⟨p', hres', hat''⟩
    obtain rfl := Option.some.inj (hres.symm.trans hres')
    exact ((path_iff ht' hr'.sane).mpr hat').path_unique ((path_iff ht' hr'.sane).mpr hat'')

end Run

end Host

/-! ## two directories of one name -/

/-- `mkdir` of `n` in the directory at `path`. -/
def makeDir (path : List Bytes) (n : Bytes) : Event :=
  .call (Env.server true) (.mkdir path n 0o755)

theorem run_makeDir {h h' : Host} {path : List Bytes} {n : Bytes}
    (hr : Host.Run (fun h e => h.OwnedRemoval e ∧ h.FlagFits e) h)
    (hstep : h.step (makeDir path n) = .ok h') :
    Host.Run (fun h e => h.OwnedRemoval e ∧ h.FlagFits e) h' :=
  .step (e := makeDir path n) hr ⟨trivial, trivial⟩ hstep

/-- A host with the directories `/a`, `/a/b` and `/b`. -/
def makeTwins : Except Fault Host := do
  let h ← (Host.mounted 0 0o755 0 Table.initial).step (makeDir [] [97])
  let h ← h.step (makeDir [[97]] [98])
  h.step (makeDir [] [98])

theorem run_makeTwins {H : Host} (hH : makeTwins = .ok H) :
    Host.Run (fun h e => h.OwnedRemoval e ∧ h.FlagFits e) H := by
  obtain ⟨h₁, h1, hH⟩ := bind_eq_ok hH
  obtain ⟨h₂, h2, h3⟩ := bind_eq_ok hH
  exact run_makeDir (run_makeDir (run_makeDir (.mount 0 0o755 0 Table.initial) h1) h2) h3

/-- Two such hosts in the same state: one makes `/a/b/x`, and its frame puts `x`
into the directory `/b` of the other. -/
theorem create_agrees_iff_astray : ∃ H H' G' : Host, ∃ frame : Bytes, makeTwins = .ok H ∧
    H.call (Env.server true) (.create [[97], [98]] [120] 0o644) = .ok (H', none) ∧
    H'.outbox = H.outbox ++ [frame] ∧ H.rdmaCreate (.server true) frame [] = .ok G' ∧
    ¬ H'.SamePaths G' := by
  have hval : makeTwins.toOption.map (fun H => decide (H.resolveParent [98] = some 6 ∧
      (H.walk (Env.server true) H.root [[97], [98]]).toOption = some 4 ∧
      (∀ i ∈ H.dInode? 4, InRange (H.number i)) ∧ InRange (H.lastIno + 1) ∧
      (H.call (Env.server true) (.create [[97], [98]] [120] 0o644)).toOption.map (fun r =>
        decide (r.2 = none ∧ ∀ frame ∈ r.1.outbox.getLast?,
          (H.rdmaCreate (.server true) frame []).toOption.isSome = true)) = some true)) =
        some true := by
    decide
  obtain ⟨H, hH, hfacts⟩ := exists_of_toOption_map hval
  obtain ⟨hres, hwalk, hnum, hino, hmade⟩ := of_decide_eq_true hfacts
  obtain ⟨⟨H', err⟩, hcall, hsent⟩ := exists_of_toOption_map hmade
  obtain ⟨herr, hframe⟩ := of_decide_eq_true hsent
  cases herr
  have hrun := run_makeTwins hH
  have hat : H.AtPath [[97], [98]] 4 :=
    Host.atPath_of_walk_root hrun.sane (Net.mem_toOption.mp hwalk)
  have hlast : ∀ m, [[97], [98]].getLast? = some m → WellFormed m := by
    rintro m ⟨⟩
    decide
  have hdir : ∀ k i, H.AtPath [[97], [98]] k → H.dInode? k = some i → InRange (H.number i) := by
    intro k i hk hi
    obtain rfl := hk.unique hrun.sane hat
    exact hnum i hi
  obtain ⟨frame, hbox, hiff⟩ := Host.create_agrees_iff (fun _ _ h => h) hrun hrun
    (fun _ _ => Iff.rfl) rfl rfl (by decide) hlast hino hdir hcall
  have hsome : frame ∈ H'.outbox.getLast? := by
    rw [hbox, List.getLast?_concat]
    rfl
  obtain ⟨G', hG⟩ := Option.isSome_iff_exists.mp (hframe frame hsome)
  have hG' := Net.mem_toOption.mp hG
  refine ⟨H, H', G', frame, hH, hcall, hbox, hG', fun hsame => ?_⟩
  obtain ⟨p, hp, hatp⟩ := (hiff true [] G' hG').mp hsame
  obtain rfl := Option.some.inj (hres.symm.trans hp)
  exact absurd (hatp.unique hrun.sane hat) (by decide)

end Wjfs
