import Wjfs.Host.Link

/-!
# Wjfs.Host.Open

Open files: each holds a reference to the dentry it was opened through, and
`close` gives it back.
-/

namespace Wjfs

namespace Host

variable {pin : Ptr → Nat} {h h' : Host} {env : Env} {path : List Bytes} {name : Bytes}
  {dir k : Ptr} {err : Option Errno}

/-- The host with one more file open on a dentry. -/
def opened (h : Host) (k : Ptr) : Host := { h.dget k with files := k :: h.files }

/-- `open` fails without a trace, or opens a dentry that is there. -/
theorem sysOpen_cases (ht : h.Ready) (hok : h.sysOpen env path name = .ok (h', err)) :
    h.NoTrace h' ∨ ∃ k ∈ h.dcache.ptrs, h' = h.opened k := by
  unfold sysOpen at hok
  cases hw : h.walk env h.root path with
  | error e =>
      unfold withParent at hok
      rw [hw] at hok
      cases hok
      exact .inl ⟨h.nextPtr, Nat.le_refl _, rfl⟩
  | ok dir =>
      obtain ⟨i, hi, hdir⟩ := isDir_of_walk hw
      obtain ⟨x, hx, hxi⟩ := Ready.exists_dentry hi
      have hxm := Dcache.mem_nodes_of_node? hx
      have hpos := ht.pos x hxm
      have hn : (h.dget dir).dcache.ptrs.Nodup := by simpa using ht.nodup
      have hnew : (h.dget dir).nextPtr ∉ (h.dget dir).dcache.ptrs := by
        simpa using ht.nextPtr_not_mem
      have hx1 : (h.dget dir).dentryOf? dir = some (x.1, x.2.get) :=
        Dcache.node?_update_self Dcache.keeps_get hx
      have hi1 : (h.dget dir).inodeOf? dir = some (h.inodes i) := by simp [inodeOf?, hi]
      have hput : ∀ n, ({ h.dget dir with nextPtr := n } : Host).dput dir =
          { h with nextPtr := n } := fun n =>
        congrArg (fun g : Host => { g with nextPtr := n }) (dput_dget hx (by omega))
      rw [withParent_of_walk hw] at hok
      unfold lookupNd at hok
      simp only [hi1] at hok
      by_cases hp : env.inodePermission (h.inodes i) .exec = true
      swap
      · simp only [if_neg hp, bind, Except.bind, Except.map] at hok
        cases hok
        exact .inl ⟨h.nextPtr, Nat.le_refl _, hput h.nextPtr⟩
      rw [if_pos hp] at hok
      cases hl : (h.dget dir).dcache.dLookup dir name with
      | some d =>
          have hl' := hl
          rw [dLookup_dget ht.nodup] at hl'
          have hd := Dcache.mem_nodes_of_dLookup ht.nodup hl'
          have hne : dir ≠ d.ptr := Dcache.parent_ne_ptr ht.nodup hd
          have hsome : (((h.dget dir).dget d.ptr).dInode? d.ptr).isSome = true := by
            have hnode : h.dentryOf? d.ptr = some (some dir, d) := Dcache.node?_of_mem ht.nodup hd
            rw [dInode?_dget, dInode?_dget, dInode?, hnode]
            exact (ht.live dir d hd).2.2.2
          refine .inr ⟨d.ptr, Dcache.mem_ptrs_of_mem hd, ?_⟩
          unfold lookupHash at hok
          simp only [hi1, hl, bind, Except.bind, hsome, if_true, Except.map] at hok
          cases hok
          have hdcache : ((h.dcache.dget dir).dget d.ptr).dput dir = h.dcache.dget d.ptr :=
            Dcache.dput_update_dget Dcache.keeps_get hne hx (by omega)
          simp only [dput, mapDcache, opened, dget, hdcache]
      | none =>
          by_cases hlen : name.length ≤ 255
          · rw [lookupHash_miss hi1 hdir (ht.alive x hxm i hxi).1 hl hnew hlen] at hok
            simp only [bind, Except.bind, dInode?_looked_new hn hx1 hnew, Option.isSome_none,
              Bool.false_eq_true, if_false, Except.map] at hok
            cases hok
            exact .inl ⟨_, Nat.le_succ _, dput_dput_looked ht hx⟩
          · rw [lookupHash_long hi1 hdir (ht.alive x hxm i hxi).1 hl hn hx1
              (by simp only [Dentry.get]; omega) hnew (by omega)] at hok
            simp only [bind, Except.bind, Except.map] at hok
            cases hok
            exact .inl ⟨_, Nat.le_succ _, hput _⟩

theorem opens_opened (h : Host) (k : Ptr) : (h.opened k).opens = Dcache.bump h.opens k := by
  funext j
  by_cases hj : j = k
  · subst hj
    simp [opens, opened, Dcache.bump]
  · simp [opens, opened, Dcache.bump, hj, List.count_cons_of_ne (Ne.symm hj)]

/-- A file more. -/
theorem Tidy.opened (ht : h.Tidy pin) (hk : k ∈ h.dcache.ptrs) : (h.opened k).Tidy pin := by
  have hs : (h.opened k).dcache.Sound (h.opened k).root (h.opened k).opens pin := by
    rw [opens_opened]
    exact ht.sound.dget hk
  refine ht.within hs (Dcache.within_update fun _ => ⟨_, rfl⟩) rfl (Nat.le_refl _) ?_
    fun _ _ _ _ => ⟨rfl, rfl, rfl⟩
  intro j hj
  rcases List.mem_cons.mp hj with rfl | hj
  · obtain ⟨x, hx, rfl⟩ := Forest.exists_mem_flat hk none
    exact ht.ready.ptr_lt x hx
  · exact ht.file_lt j hj

/-- A file less.  The dentry stays, being pinned. -/
theorem Tidy.closed (ht : h.Tidy pin) (hk : k ∈ h.dcache.ptrs) (hpin : 1 ≤ pin k) :
    (h.sysClose k).Tidy pin ∧ (h.sysClose k).dcache.bare = h.dcache.bare := by
  unfold sysClose
  split
  swap
  · exact ⟨ht, rfl⟩
  · next hmem =>
      have hopens : h.opens = Dcache.bump ({ h with files := h.files.erase k } : Host).opens k := by
        funext j
        have hcount := List.count_pos_iff.mpr hmem
        by_cases hj : j = k
        · subst hj
          simp only [opens, Dcache.bump, List.count_erase_self, if_true]
          omega
        · simp only [opens, Dcache.bump, List.count_erase_of_ne hj, if_neg hj, Nat.add_zero]
      have hs := ht.sound
      rw [hopens] at hs
      obtain ⟨hs', hw, -⟩ := hs.dput hk
      refine ⟨ht.within hs' hw rfl (Nat.le_refl _) ?_ fun _ _ _ _ => ⟨rfl, rfl, rfl⟩,
        hs.bare_dput hk (Nat.le_trans hpin (Nat.le_add_left _ _))⟩
      exact fun j hj => ht.file_lt j (List.mem_of_mem_erase hj)

end Host

end Wjfs
