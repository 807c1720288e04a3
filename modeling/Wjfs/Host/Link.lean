import Wjfs.Host.Keep

/-!
# Wjfs.Host.Link

`stat` and `link` on a host in order: a lookup leaves no trace, and a link
adds one pinned leaf that shares the inode of a file.
-/

namespace Wjfs

namespace Host

variable {pin : Ptr → Nat} {h h' g : Host} {env : Env} {path : List Bytes} {name : Bytes}
  {dir di k i : Ptr} {d : Dentry} {err : Option Errno}

/-- A lookup leaves no trace. -/
theorem sysLookup_cases (ht : h.Ready) (hok : h.sysLookup env path name = .ok (h', err)) :
    h.NoTrace h' := by
  unfold sysLookup at hok
  obtain ⟨g, e, hno, heq⟩ | ⟨dir, di, d, -, hv, heq⟩ | ⟨dir, di, hq, heq⟩ :=
    withName_cases ht env path name .enoent
      (fun h _ dentry => .ok (h, if (h.dInode? dentry).isSome then none else some .enoent))
  · rw [heq] at hok
    cases hok
    exact hno
  · rw [heq] at hok
    simp only [Except.map] at hok
    rw [dput_dput_victim ht hv] at hok
    cases hok
    exact ⟨_, Nat.le_refl _, rfl⟩
  · obtain ⟨x, hx, -⟩ := hq.dentry
    rw [heq] at hok
    simp only [Except.map] at hok
    rw [dput_dput_looked ht hx] at hok
    cases hok
    exact ⟨_, Nat.le_succ _, rfl⟩

/-! ## link -/

/-- Holding a dentry does not change where a walk leads. -/
theorem walk_dget (h : Host) (k p : Ptr) (path : List Bytes) :
    (h.dget k).walk env p path = h.walk env p path := by
  induction path generalizing p with
  | nil => simp only [walk, inodeOf?_dget]
  | cons name path ih =>
      have hl : (h.dget k).dcache.dLookup p name =
          (h.dcache.dLookup p name).map fun d => if d.ptr = k then d.get else d :=
        Dcache.dLookup_update Dcache.keeps_get fun _ => ⟨rfl, rfl⟩
      simp only [walk, inodeOf?_dget, hl]
      cases h.dcache.dLookup p name with
      | none => rfl
      | some d =>
          have hptr : (if d.ptr = k then d.get else d).ptr = d.ptr := by split <;> rfl
          simp only [Option.map_some, hptr, ih]

/-- What is found while a dentry is held. -/
theorem exists_dLookup_of_dget {o : Ptr} (hl : (h.dget k).dcache.dLookup o name = some d) :
    ∃ c, h.dcache.dLookup o name = some c ∧ d = if c.ptr = k then c.get else c := by
  rw [dcache_dget, Dcache.dget,
    Dcache.dLookup_update Dcache.keeps_get fun _ => ⟨rfl, rfl⟩] at hl
  obtain ⟨c, hc, hcd⟩ := Option.map_eq_some_iff.mp hl
  exact ⟨c, hc, hcd.symm⟩

/-- A name that is free while a dentry is held is free. -/
theorem NewName.of_dget (hq : (h.dget k).NewName env path name dir di) :
    h.NewName env path name dir di := by
  have hinode := hq.inode
  have hmiss := hq.miss
  rw [dInode?_dget] at hinode
  rw [dcache_dget, Dcache.dget, Dcache.dLookup_update Dcache.keeps_get fun _ => ⟨rfl, rfl⟩,
    Option.map_eq_none_iff] at hmiss
  exact ⟨(walk_dget ..).symm.trans hq.walk, hinode, hq.isDir, hmiss, hq.norm, hq.length⟩

/-- A trace that was left while a reference was held. -/
theorem NoTrace.dput (ht : h.Ready) (hk : k ∈ h.dcache.ptrs) (hno : (h.dget k).NoTrace g) :
    h.NoTrace (g.dput k) := by
  obtain ⟨n, hn, rfl⟩ := hno
  obtain ⟨x, hx, hxk⟩ := Forest.exists_mem_flat hk none
  have hnode : h.dentryOf? k = some x := (Dcache.node?_eq_some_iff ht.nodup).mpr ⟨hx, hxk⟩
  refine ⟨n, hn, ?_⟩
  have hpos := ht.pos x hx
  exact congrArg (fun g : Host => { g with nextPtr := n }) (dput_dget hnode (by omega))

/-- The host with a second name for the inode `i`. -/
def hardLinked (h : Host) (dir : Ptr) (name : Bytes) (i : Ptr) : Host :=
  { h.setInode i Inode.incNlink with
    dcache := h.dcache.plant dir ((liveDentry h.nextPtr name i).withCount 1)
    nextPtr := h.nextPtr + 1 }

/-- `vfs_link` on the dentry of a new name. -/
theorem vfsLink_cases (ht : h.Ready) (hq : h.NewName env path name dir di)
    (hi : h.dInode? k = some i)
    (hok : ((h.looked (h.dcache.dget dir) dir name).vfsLink env k di h.nextPtr).map
      (fun r => ((r.1.dput h.nextPtr).dput dir, r.2)) = .ok (h', err)) :
    h.NoTrace h' ∨ (h.inodes i).isDir = false ∧ h' = h.hardLinked dir name i ∧ err = none := by
  obtain ⟨x, hx, -⟩ := hq.dentry
  have hx1 : (h.dcache.dget dir).node? dir = some (x.1, x.2.get) :=
    Dcache.node?_update_self Dcache.keeps_get hx
  obtain ⟨y, hy, hyi⟩ := Ready.exists_dentry hi
  have hkn : k ≠ h.nextPtr := fun heq => ht.nextPtr_not_mem (heq ▸ Dcache.mem_ptrs_of_node? hy)
  have hik : (h.looked (h.dcache.dget dir) dir name).dInode? k = some i := by
    rw [dInode?_looked_ne (by simpa using ht.nodup) hx1 (by simpa using ht.nextPtr_not_mem) hkn]
    exact (dInode?_dget ..).trans hi
  have hfail : ∀ e, Except.ok (((h.looked (h.dcache.dget dir) dir name).dput h.nextPtr).dput dir,
      e) = (.ok (h', err) : Outcome) → h.NoTrace h' := by
    intro e heq
    rw [dput_dput_looked ht hx] at heq
    cases heq
    exact ⟨_, Nat.le_succ _, rfl⟩
  unfold vfsLink at hok
  simp only [inodeOf?, hik, Option.map_some] at hok
  cases hm : (h.looked (h.dcache.dget dir) dir name).mayCreate env di h.nextPtr with
  | some e =>
      rw [hm] at hok
      exact .inl (hfail _ hok)
  | none =>
      rw [hm] at hok
      cases hdir : (h.inodes i).isDir with
      | true =>
          have hdir' : ((h.looked (h.dcache.dget dir) dir name).inodes i).isDir = true := hdir
          simp only [if_pos hdir', Except.map] at hok
          exact .inl (hfail _ hok)
      | false =>
          have hdir' : ¬ ((h.looked (h.dcache.dget dir) dir name).inodes i).isDir = true := by
            rw [show ((h.looked (h.dcache.dget dir) dir name).inodes i).isDir = false from hdir]
            simp
          simp only [if_neg hdir', wjfsLink, hik] at hok
          have hnone : ¬ ((((h.looked (h.dcache.dget dir) dir name).setInode i
              Inode.incNlink).dget h.nextPtr).dInode? h.nextPtr).isSome = true := by
            rw [dInode?_dget, dInode?_setInode, dInode?_looked_new (by simpa using ht.nodup) hx1
              (by simpa using ht.nextPtr_not_mem)]
            simp
          rw [dInstantiate, if_neg hnone] at hok
          simp only [bind, Except.bind, Except.map] at hok
          cases hok
          refine .inr ⟨rfl, ?_, rfl⟩
          have htree : (((((h.dcache.dget dir).plant dir (negDentry h.nextPtr name)).dget
              h.nextPtr).update h.nextPtr (Dentry.instantiate i)).dput h.nextPtr).dput dir =
              h.dcache.plant dir ((liveDentry h.nextPtr name i).withCount 1) := by
            have hnew : (negDentry h.nextPtr name).ptr ∉ (h.dcache.dget dir).ptrs := by
              simpa [negDentry] using ht.nextPtr_not_mem
            rw [Dcache.dget, Dcache.update_plant (k := h.nextPtr) rfl Dcache.keeps_get hnew,
              Dcache.update_plant (k := h.nextPtr) (d := (negDentry h.nextPtr name).get) rfl
                (Dcache.keeps_instantiate i) hnew,
              Dcache.dput_plant (k := h.nextPtr)
                (d := Dentry.instantiate i (negDentry h.nextPtr name).get)
                (by simpa using ht.nodup) (by simpa using hq.mem) hnew rfl
                (by simp [Dentry.instantiate, Dentry.get, negDentry]),
              Dcache.dput_plant_dget ht.nodup hq.mem ht.nextPtr_not_mem hx
                (ht.pos x (Dcache.mem_nodes_of_node? hx))]
            rfl
          exact congrArg (fun t => ({ h.setInode i Inode.incNlink with
            dcache := t, nextPtr := h.nextPtr + 1 } : Host)) htree

/-- A reference that was taken before a second name was made. -/
theorem dput_hardLinked (ht : h.Ready) (hk : k ∈ h.dcache.ptrs) (hdir : dir ∈ h.dcache.ptrs) :
    ((h.dget k).hardLinked dir name i).dput k = h.hardLinked dir name i := by
  obtain ⟨x, hx, hxk⟩ := Forest.exists_mem_flat hk none
  have hnode : h.dentryOf? k = some x := (Dcache.node?_eq_some_iff ht.nodup).mpr ⟨hx, hxk⟩
  have htree : ((h.dcache.dget k).plant dir ((liveDentry h.nextPtr name i).withCount 1)).dput k =
      h.dcache.plant dir ((liveDentry h.nextPtr name i).withCount 1) :=
    Dcache.dput_plant_dget ht.nodup hdir ht.nextPtr_not_mem hnode (ht.pos x hx)
  exact congrArg (fun t => ({ h.setInode i Inode.incNlink with
    dcache := t, nextPtr := h.nextPtr + 1 } : Host)) htree

/-- `link` fails without a trace, or gives a file that is no directory a second
name. -/
theorem sysLink_cases (ht : h.Ready) {oldPath : List Bytes} {oldName : Bytes}
    (hok : h.sysLink env oldPath oldName path name = .ok (h', err)) :
    h.NoTrace h' ∨ err = none ∧ ∃ dir di o oi d i, h.NewName env path name dir di ∧
      h.Victim env oldPath o oi d ∧ d.dName = oldName ∧ d.dInode = some i ∧
      (h.inodes i).isDir = false ∧ h' = h.hardLinked dir name i := by
  unfold sysLink at hok
  cases hw : h.walk env h.root oldPath with
  | error e =>
      rw [withParent, hw] at hok
      cases hok
      exact .inl ⟨_, Nat.le_refl _, rfl⟩
  | ok o =>
  rw [withParent_of_walk hw] at hok
  obtain ⟨j, hj, hjdir⟩ := isDir_of_walk hw
  obtain ⟨x, hx, hxj⟩ := Ready.exists_dentry hj
  have hxm := Dcache.mem_nodes_of_node? hx
  have ho := Dcache.mem_ptrs_of_node? hx
  have hx1 : (h.dget o).dentryOf? o = some (x.1, x.2.get) :=
    Dcache.node?_update_self Dcache.keeps_get hx
  have ht1 := ht.dget o
  have hpos := ht.pos x hxm
  obtain ⟨m, e, hm, heq⟩ | ⟨d, hl, heq⟩ | ⟨hl, hlen, heq⟩ := withDentry_cases env oldName
    (fun g oldDentry =>
      if (g.dInode? oldDentry).isNone then .ok (g, some .enoent)
      else g.withNewName env path name fun h dir dentry => h.vfsLink env oldDentry dir dentry)
    ht1.nodup hx1 (by simp only [Dentry.get]; omega) (n := h.inodes j) (by simp [inodeOf?, hj])
    hjdir (ht.alive x hxm j hxj).1 ht1.nextPtr_not_mem
  · rw [heq] at hok
    simp only [Except.map] at hok
    cases hok
    exact .inl (NoTrace.dput ht ho ⟨m, hm, rfl⟩)
  · -- the old name is there and held while the new one is made
    have hname := (Dcache.dLookup_some hl).2.2
    rw [← hname] at hl
    have hd := dentryOf?_of_dLookup ht1.nodup hl
    have hk : d.ptr ∈ (h.dget o).dcache.ptrs := Dcache.mem_ptrs_of_node? hd
    obtain ⟨i, hi⟩ := Option.isSome_iff_exists.mp
      (ht1.live o d (Dcache.mem_nodes_of_node? hd)).2.2.2
    have hik : ((h.dget o).dget d.ptr).dInode? d.ptr = some i := by
      rw [dInode?_dget, dInode?, hd]
      exact hi
    have ht2 := ht1.dget d.ptr
    rw [heq] at hok
    simp only [hik, Option.isNone_some, Bool.false_eq_true, if_false] at hok
    obtain ⟨g, e', hno, heq'⟩ | ⟨dir, di, hq, heq'⟩ := withNewName_cases ht2 env path name
      (fun h dir dentry => h.vfsLink env d.ptr dir dentry)
    · rw [heq'] at hok
      simp only [Except.map] at hok
      cases hok
      exact .inl (NoTrace.dput ht ho (NoTrace.dput ht1 hk hno))
    · rw [heq'] at hok
      cases hr : (((h.dget o).dget d.ptr).looked (((h.dget o).dget d.ptr).dcache.dget dir) dir
          name).vfsLink env d.ptr di ((h.dget o).dget d.ptr).nextPtr with
      | error f => rw [hr] at hok; cases hok
      | ok r =>
      rw [hr] at hok
      simp only [Except.map] at hok
      cases hok
      have hmap := congrArg (Except.map fun r : Host × Option Errno =>
        ((r.1.dput ((h.dget o).dget d.ptr).nextPtr).dput dir, r.2)) hr
      rcases vfsLink_cases ht2 hq hik hmap with hno | ⟨hdir, hlinked, herr⟩
      · exact .inl (NoTrace.dput ht ho (NoTrace.dput ht1 hk hno))
      · obtain ⟨c, hc, hdc⟩ := exists_dLookup_of_dget hl
        have hsame : d.dName = c.dName ∧ d.dInode = c.dInode := by
          rw [hdc]
          split <;> exact ⟨rfl, rfl⟩
        refine .inr ⟨herr, dir, di, o, j, c, i, hq.of_dget.of_dget, ⟨hw, hj, hsame.1 ▸ hc⟩,
          hsame.1.symm.trans hname, hsame.2.symm.trans hi, hdir, ?_⟩
        have hdirm : dir ∈ (h.dget o).dcache.ptrs := by simpa using hq.mem
        rw [hlinked, dput_hardLinked ht1 hk hdirm, dput_hardLinked ht ho (by simpa using hdirm)]
  · have hlk : (h.dget o).looked (h.dget o).dcache o oldName =
        h.looked (h.dcache.dget o) o oldName := rfl
    have hnone : (h.looked (h.dcache.dget o) o oldName).dInode? h.nextPtr = none :=
      dInode?_looked_new (by simpa using ht.nodup) hx1 (by simpa using ht.nextPtr_not_mem)
    rw [heq, hlk, nextPtr_dget] at hok
    simp only [hnone, Option.isNone_none, if_true, Except.map] at hok
    rw [dput_dput_looked ht hx] at hok
    cases hok
    exact .inl ⟨_, Nat.le_succ _, rfl⟩

theorem Tidy.hardLinked (ht : h.Tidy pin) (hdir : h.dInode? dir = some di)
    (hisdir : (h.inodes di).isDir = true) (hi : h.dInode? k = some i)
    (hfile : (h.inodes i).isDir = false) :
    (h.hardLinked dir name i).Tidy (Function.update pin h.nextPtr 1) := by
  obtain ⟨x, hx, hxi⟩ := Ready.exists_dentry hi
  have hxm := Dcache.mem_nodes_of_node? hx
  have hkind : ∀ j, ((h.hardLinked dir name i).inodes j).SameKind (h.inodes j) := by
    intro j
    unfold Host.hardLinked Host.setInode
    by_cases hj : j = i
    · subst hj
      simp only [if_true]
      exact ⟨rfl, rfl, rfl⟩
    · simp only [if_neg hj]
      exact ⟨rfl, rfl, rfl⟩
  refine ht.plant (d := (liveDentry h.nextPtr name i).withCount 1) rfl rfl rfl
    (Nat.le_succ _) ⟨Nat.le_refl _, Nat.lt_succ_self _⟩ ⟨rfl, rfl, rfl, rfl⟩ rfl hdir hisdir rfl
    (Nat.lt_succ_of_lt (ht.ready.inode_lt x hxm i hxi)) ?_ ?_ fun _ _ j _ => hkind j
  · obtain ⟨hmode, hdead, -⟩ := hkind i
    rw [hmode, hdead]
    exact ht.ready.alive x hxm i hxi
  · intro hd
    rw [(hkind i).isDir, hfile] at hd
    cases hd

end Host

end Wjfs
