import Wjfs.Run

/-!
# Wjfs.Umount

Unmounting: `wjfs_d_genocide` and `wjfs_kill_litter_super` of `wjfs.c`, and
`shrink_dcache_for_umount_subtree` of `fs/dcache.c`.

Both walks are loops that go down into the children of a dentry and come back
up through `d_parent`.  They are modelled step by step, with the dentries
above the current one on a stack.  `step_genocide` and `step_shrink` say where
the two loops end up; for a host in order that is the end of the unmount, and
never the `BUG()` at a dentry still in use.
-/

namespace Wjfs

/-! ## the two loops -/

/-- Where an unmount stands.

* `genocide` is `wjfs_d_genocide` in the children of a dentry: those it has
  passed, last one first, and those from `next` on.  The stack holds
  `this_parent` and its ancestors below the root, each with its own siblings
  on both sides.
* `shrink` is `shrink_dcache_for_umount_subtree` at a dentry with the children
  it still has.  The stack holds its ancestors, each with the children after
  the first.
* `bug` is the `BUG()` at a dentry that is still in use. -/
inductive Umount where
  | genocide (root : Dentry) (seen next : Dcache) (up : List (Dentry × Dcache × Dcache))
  | shrink (dentry : Dentry) (subdirs : Dcache) (up : List (Dentry × Dcache))
  | done
  | bug

namespace Umount

/-- `__d_drop` of all the children of a dentry. -/
def dropSubdirs : Dcache → Dcache
  | .nil => .nil
  | .cons d sub next => .cons d.drop sub (dropSubdirs next)

/-- Go on with the first child, if there is one. -/
def enter (dentry : Dentry) (subdirs : Dcache) (up : List (Dentry × Dcache)) : Umount :=
  match subdirs with
  | .nil => .shrink dentry .nil up
  | .cons d sub next => .shrink d sub ((dentry, next) :: up)

/-- One round of the loop in progress. -/
def step : Umount → Umount
  | .genocide root seen (.cons d sub next) up =>
      if d.dUnhashed || d.dInode.isNone then .genocide root (.cons d sub seen) next up
      else
        match sub with
        | .nil => .genocide root (.cons d.dec .nil seen) next up
        | .cons .. => .genocide root .nil sub ((d, seen, next) :: up)
  | .genocide root seen .nil ((d, seen', next) :: up) =>
      .genocide root (.cons d.dec (seen.revOnto .nil) seen') next up
  -- `shrink_dcache_for_umount` takes the superblock's reference to the root
  | .genocide root seen .nil [] => .shrink root.dec.drop (seen.revOnto .nil) []
  | .shrink dentry (.cons d sub next) up => enter dentry (dropSubdirs (.cons d sub next)) up
  | .shrink dentry .nil up =>
      if dentry.dCount ≠ 0 then .bug
      else
        match up with
        | [] => .done
        | (parent, next) :: up => enter parent.dec next up
  | .done => .done
  | .bug => .bug

/-! ## where they end -/

/-- The dentries that `wjfs_d_genocide` passes over, with all below them. -/
def Skipped (d : Dentry) : Prop := (d.dUnhashed || d.dInode.isNone) = true

instance (d : Dentry) : Decidable (Skipped d) := inferInstanceAs (Decidable (_ = true))

/-- What `wjfs_d_genocide` makes of the children of a dentry. -/
def genocided : Dcache → Dcache
  | .nil => .nil
  | .cons d sub next =>
      if Skipped d then .cons d sub (genocided next)
      else .cons d.dec (genocided sub) (genocided next)

section Genocide

variable {root d c : Dentry} {seen next sub s m : Dcache} {up : List (Dentry × Dcache × Dcache)}

theorem step_skip (h : Skipped d) :
    step (.genocide root seen (.cons d sub next) up) =
      .genocide root (.cons d sub seen) next up := by
  cases sub <;> exact if_pos h

theorem step_leaf (h : ¬ Skipped d) :
    step (.genocide root seen (.cons d .nil next) up) =
      .genocide root (.cons d.dec .nil seen) next up := if_neg h

theorem step_down (h : ¬ Skipped d) :
    step (.genocide root seen (.cons d (.cons c s m) next) up) =
      .genocide root .nil (.cons c s m) ((d, seen, next) :: up) := if_neg h

/-- The first loop passes the children that are left, and all below them. -/
theorem iterate_genocide (root : Dentry) (seen next : Dcache)
    (up : List (Dentry × Dcache × Dcache)) :
    ∃ n, step^[n] (.genocide root seen next up) =
      .genocide root ((genocided next).revOnto seen) .nil up := by
  induction next generalizing seen up with
  | nil => exact ⟨0, rfl⟩
  | cons d sub next ihs ihn =>
      by_cases hskip : Skipped d
      · obtain ⟨n, hn⟩ := ihn (.cons d sub seen) up
        refine ⟨n + 1, ?_⟩
        rw [Function.iterate_succ_apply, step_skip hskip, hn, genocided, if_pos hskip]
        rfl
      · cases sub with
        | nil =>
            obtain ⟨n, hn⟩ := ihn (.cons d.dec .nil seen) up
            refine ⟨n + 1, ?_⟩
            rw [Function.iterate_succ_apply, step_leaf hskip, hn, genocided, if_neg hskip]
            rfl
        | cons c s m =>
            -- down into the children, through them, and up again
            obtain ⟨n₁, hdown⟩ := ihs .nil ((d, seen, next) :: up)
            obtain ⟨n₂, hnext⟩ := ihn (.cons d.dec (genocided (.cons c s m)) seen) up
            refine ⟨n₂ + 1 + n₁ + 1, ?_⟩
            rw [Function.iterate_succ_apply, step_down hskip, Function.iterate_add_apply, hdown,
              Function.iterate_succ_apply, step, Forest.revOnto_nil, hnext]
            conv => rhs; rw [genocided, if_neg hskip]
            rfl

end Genocide

/-- A dentry whose only references are those of its children. -/
def Idle (d : Dentry) (sub : Dcache) : Prop := d.dCount = sub.roots.length

section Shrink

variable {d : Dentry} {sub : Dcache} {u : List (Dentry × Dcache)}

theorem size_dropSubdirs (sub : Dcache) : (dropSubdirs sub).size = sub.size := by
  induction sub with
  | nil => rfl
  | cons d s n _ ihn => simp [dropSubdirs, Forest.size, ihn]

theorem length_roots_dropSubdirs (sub : Dcache) :
    (dropSubdirs sub).roots.length = sub.roots.length := by
  induction sub with
  | nil => rfl
  | cons d s n _ ihn => simp [dropSubdirs, Forest.roots, ihn]

theorem all_dropSubdirs (h : sub.All Idle) : (dropSubdirs sub).All Idle := by
  induction sub with
  | nil => exact h
  | cons d s n _ ihn => exact ⟨h.1, h.2.1, ihn h.2.2⟩

/-- At a dentry with children the loop goes on with the first of them. -/
theorem shrink_of_enter (hd : Idle d sub)
    (henter : ∃ n d', d'.dCount = 0 ∧ step^[n] (enter d (dropSubdirs sub) u) = .shrink d' .nil u) :
    ∃ n d', d'.dCount = 0 ∧ step^[n] (.shrink d sub u) = .shrink d' .nil u := by
  cases sub with
  | nil => exact ⟨0, d, hd, rfl⟩
  | cons c s next =>
      obtain ⟨n, d', hd', hn⟩ := henter
      exact ⟨n + 1, d', hd', by rw [Function.iterate_succ_apply, step, hn]⟩

theorem idle_dropSubdirs (hd : Idle d sub) : Idle d (dropSubdirs sub) := by
  unfold Idle
  rw [length_roots_dropSubdirs]
  exact hd

/-- The second loop consumes the children that a dentry has left, if no
dentry below has a reference that is not a child's. -/
theorem iterate_enter (hd : Idle d sub) (hall : sub.All Idle) :
    ∃ n d', d'.dCount = 0 ∧ step^[n] (enter d sub u) = .shrink d' .nil u := by
  -- dropping the children from the hash makes another forest, of the same size
  induction hsize : sub.size using Nat.strong_induction_on generalizing d sub u with
  | _ size ih =>
      subst hsize
      cases sub with
      | nil => exact ⟨0, d, hd, rfl⟩
      | cons c s next =>
          obtain ⟨hc, hs, hnext⟩ := hall
          obtain ⟨n₁, c', hc', hn₁⟩ := shrink_of_enter (u := (d, next) :: u) hc
            (ih (dropSubdirs s).size (by rw [size_dropSubdirs]; simp only [Forest.size]; omega)
              (idle_dropSubdirs hc) (all_dropSubdirs hs) rfl)
          have hd' : Idle d.dec next := by
            simp only [Idle, Forest.roots, List.length_cons, Dentry.dec] at hd ⊢
            omega
          obtain ⟨n₂, d', hzero, hn₂⟩ := ih next.size (by simp only [Forest.size]; omega)
            (u := u) hd' hnext rfl
          refine ⟨n₂ + 1 + n₁, d', hzero, ?_⟩
          rw [enter, Function.iterate_add_apply, hn₁, Function.iterate_succ_apply, step,
            if_neg (by simp [hc']), hn₂]

end Shrink

/-! ## the whole unmount -/

/-- A dentry with one reference besides those of its children, which
`wjfs_d_genocide` takes. -/
def Pinned (d : Dentry) (sub : Dcache) : Prop := d.dCount = sub.roots.length + 1 ∧ ¬ Skipped d

/-- `wjfs_d_genocide` takes exactly the pins. -/
theorem genocided_pinned {sub : Dcache} (h : sub.All Pinned) :
    (genocided sub).All Idle ∧ (genocided sub).roots.length = sub.roots.length := by
  induction sub with
  | nil => exact ⟨trivial, rfl⟩
  | cons d s n ihs ihn =>
      obtain ⟨⟨hcount, hskip⟩, hs, hn⟩ := h
      obtain ⟨hall, hlen⟩ := ihs hs
      obtain ⟨hall', hlen'⟩ := ihn hn
      rw [genocided, if_neg hskip]
      refine ⟨⟨?_, hall, hall'⟩, by simp only [Forest.roots, List.length_cons, hlen']⟩
      rw [Idle, hlen, Dentry.dec, hcount]
      simp

/-- Where every dentry is pinned once, and the root too, the unmount ends. -/
theorem iterate_umount {root : Dentry} {sub : Dcache} (hroot : root.dCount = sub.roots.length + 1)
    (hall : sub.All Pinned) : ∃ n, step^[n] (.genocide root .nil sub []) = .done := by
  obtain ⟨hidle, hlen⟩ := genocided_pinned hall
  have hr : Idle root.dec.drop (genocided sub) := by
    rw [Idle, hlen, Dentry.drop, Dentry.dec, hroot]
    simp
  obtain ⟨n₁, hn₁⟩ := iterate_genocide root .nil sub []
  obtain ⟨n₂, d', hd', hn₂⟩ := shrink_of_enter (u := []) hr
    (iterate_enter (idle_dropSubdirs hr) (all_dropSubdirs hidle))
  refine ⟨1 + n₂ + 1 + n₁, ?_⟩
  rw [Function.iterate_add_apply, hn₁, Function.iterate_succ_apply, step, Forest.revOnto_nil,
    Function.iterate_add_apply, hn₂, Function.iterate_one, step, if_neg (by simp [hd'])]

/-- An unmount that ends never was at the `BUG()`. -/
theorem ne_bug_of_done {s : Umount} {n : Nat} (hn : step^[n] s = .done) (m : Nat) :
    step^[m] s ≠ .bug := by
  intro hm
  have hdone : step^[m + n] s = .done := by
    rw [Function.iterate_add_apply, hn, Function.iterate_fixed rfl]
  rw [Nat.add_comm, Function.iterate_add_apply, hm, Function.iterate_fixed rfl] at hdone
  cases hdone

end Umount

/-- The start of an unmount: the mount has given its reference to the root
back. -/
def Host.umount (h : Host) : Umount :=
  match (h.dput h.root).dcache with
  | .nil => .done
  | .cons root sub _ => .genocide root .nil sub []

/-- A tree with all references accounted for is one root with its children. -/
theorem Dcache.Sound.exists_root {t : Dcache} {root : Ptr} {ext pin : Ptr → Nat}
    (hs : t.Sound root ext pin) : ∃ r sub, t = .cons r sub .nil ∧ r.ptr = root := by
  cases t with
  | nil => cases hs.root_mem
  | cons r sub next =>
      have hr : r.ptr = root := hs.top (none, r) (by simp [Dcache.nodes, Forest.flat]) rfl
      cases next with
      | nil => exact ⟨r, sub, rfl, hr⟩
      | cons r' sub' next' =>
          have hr' : r'.ptr = root := hs.top (none, r') (by simp [Dcache.nodes, Forest.flat]) rfl
          have hn := hs.nodup
          simp [Dcache.ptrs, Forest.keys, hr, hr'] at hn

namespace Host

variable {h : Host}

/-- In a host in order with no file open, every dentry but the root has one
reference besides those of its children, and `wjfs_d_genocide` passes none
over. -/
theorem Tidy.pinned (ht : h.Tidy h.onePin) (hfiles : h.files = []) {p : Ptr} {d : Dentry}
    (hd : (some p, d) ∈ h.dcache.nodes) :
    d.dCount = 1 + h.dcache.kids d.ptr ∧ d.dUnhashed = false ∧ d.dInode.isSome = true := by
  have hcount := ht.sound.count _ hd
  have hle := ht.sound.pin_le p d hd
  have hpin : h.onePin d.ptr = 1 := by
    unfold onePin at hle ⊢
    by_cases hroot : d.ptr = h.root
    · rw [if_pos hroot] at hle
      omega
    · exact if_neg hroot
  have hopen : h.opens d.ptr = 0 := by simp [opens, hfiles]
  obtain ⟨hhash, -, -, hpos⟩ := ht.ready.live p d hd
  simp only [hpin, hopen] at hcount
  exact ⟨by omega, hhash, hpos⟩

/-- **A host in order can be unmounted**: with no file open, the two loops end
and find no dentry in use. -/
theorem Tidy.umount (ht : h.Tidy h.onePin) (hfiles : h.files = []) :
    ∃ n, Umount.step^[n] h.umount = .done := by
  obtain ⟨r, sub, ht', hr⟩ := ht.sound.exists_root
  have hn := ht.sound.nodup
  have hnodes : h.dcache.nodes = (none, r) :: Forest.flat Dentry.ptr (some h.root) sub := by
    rw [ht', Dcache.nodes, Forest.flat, hr, Forest.flat, List.append_nil]
  have hsub : ∀ {k}, k ≠ h.root → h.dcache.subdirs k = Forest.sub Dentry.ptr k sub := by
    intro k hk
    rw [ht', Dcache.subdirs, Forest.sub, if_neg (hr ▸ hk.symm), Forest.sub, Forest.append_nil]
  have hkeys : h.root ∉ Forest.keys Dentry.ptr sub ∧ (Forest.keys Dentry.ptr sub).Nodup := by
    rw [ht', Dcache.ptrs, Forest.keys, hr, Forest.keys, List.append_nil, List.nodup_cons] at hn
    exact hn
  have hroot : (none, r) ∈ h.dcache.nodes := by rw [hnodes]; exact List.mem_cons_self
  have hrkids : h.dcache.kids h.root = sub.roots.length := by
    rw [Dcache.kids_eq_length hn, ht', Dcache.subdirs, Forest.sub, if_pos hr]
  have hrcount : r.dCount = sub.roots.length + 2 := by
    have hcount := ht.sound.count _ hroot
    simp only [hr, hrkids, ht.sound.pin_root, opens, hfiles, List.count_nil] at hcount
    omega
  -- the mount's reference to the root is not the last one
  have hdput : h.dcache.dput h.root = .cons r.dec sub .nil := by
    rw [← hr, Dcache.dput_of_ne_one (Dcache.node?_of_mem hn hroot) (by simp only; omega), hr, ht',
      Dcache.update, Forest.modify, Forest.map, if_pos hr, Forest.map]
    exact congrArg (fun s => Forest.cons r.dec s .nil) (Forest.modify_of_not_mem hkeys.1)
  have hstart : h.umount = .genocide r.dec .nil sub [] := by
    rw [Host.umount, dcache_dput, hdput]
  rw [hstart]
  refine Umount.iterate_umount (by simp only [Dentry.dec]; omega) ?_
  refine Forest.all_of_flat (p := some h.root) hkeys.2 fun x hx => ?_
  have hxm : x ∈ h.dcache.nodes := by rw [hnodes]; exact List.mem_cons_of_mem _ hx
  have hxr : x.2.ptr ≠ h.root := fun heq => hkeys.1 (heq ▸ Forest.mem_keys_of_mem_flat hx)
  obtain ⟨p, hp⟩ : ∃ p, x.1 = some p := by
    rcases Forest.parent_of_mem_flat hx with heq | ⟨k, -, heq⟩
    · exact ⟨_, heq⟩
    · exact ⟨k, heq⟩
  obtain ⟨hcount, hhash, hpos⟩ := ht.pinned hfiles (p := p) (d := x.2) (by rw [← hp]; exact hxm)
  rw [Dcache.kids_eq_length hn, hsub hxr] at hcount
  refine ⟨by omega, ?_⟩
  simp [Umount.Skipped, hhash, Option.isNone_iff_eq_none, Option.isSome_iff_ne_none.mp hpos]

/-- **Unmount never finds a busy dentry.**  After any run of local calls, with
owned removals only, and of control frames whose flags fit, every dentry but
the root is hashed and positive and has one reference besides those of its
children; the unmount then ends, and is never at the `BUG()`. -/
theorem umount_never_busy (hr : Run (fun h e => h.OwnedRemoval e ∧ h.FlagFits e) h) :
    (∀ p d, (some p, d) ∈ h.dcache.nodes →
      d.dCount = 1 + h.dcache.kids d.ptr ∧ d.dUnhashed = false ∧ d.dInode.isSome = true) ∧
    (∃ n, Umount.step^[n] h.umount = .done) ∧ ∀ n, Umount.step^[n] h.umount ≠ .bug := by
  obtain ⟨ht, hfiles⟩ := hr.tidy fun _ _ ho => ho
  obtain ⟨n, hn⟩ := ht.umount hfiles
  exact ⟨fun p d hd => ht.pinned hfiles hd, ⟨n, hn⟩, Umount.ne_bug_of_done hn⟩

end Host

/-- The peer's directory `d` and a local file `f` in it. -/
def linkAndFile : List Event :=
  [.create true (wjfsClientCreate 7 [100] 1 Host.rootName true) [],
    .call (Env.server true) (.create [[100]] [102] 0o644)]

/-- A host with a link and a local file below it can be unmounted. -/
theorem umount_never_busy_linkAndFile :
    ∃ h, (Host.mounted 0 0o755 0 Table.initial).play linkAndFile = .ok h ∧
      h.dcache.nodes.map (fun x => (x.2.dName, x.2.dCount)) =
        [(Host.rootName, 3), ([100], 2), ([102], 1)] ∧
      (∃ n, Umount.step^[n] h.umount = .done) ∧ ∀ n, Umount.step^[n] h.umount ≠ .bug := by
  have hplay : ((Host.mounted 0 0o755 0 Table.initial).play linkAndFile).toOption.map
      (fun h => h.dcache.nodes.map fun x => (x.2.dName, x.2.dCount)) =
        some [(Host.rootName, 3), ([100], 2), ([102], 1)] := by decide
  obtain ⟨h, hp, hnodes⟩ := exists_of_toOption_map hplay
  have hrun : Host.Run (fun h e => h.OwnedRemoval e ∧ h.FlagFits e) h :=
    (Host.Run.mount 0 0o755 0 Table.initial).play (fun h e he => by
      simp only [linkAndFile, List.mem_cons, List.not_mem_nil, or_false] at he
      rcases he with rfl | rfl <;> exact ⟨trivial, trivial⟩) hp
  exact ⟨h, hp, hnodes, (Host.umount_never_busy hrun).2⟩

end Wjfs
