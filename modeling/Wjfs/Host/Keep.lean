import Wjfs.Dcache.Bare
import Wjfs.Host.Remove

/-!
# Wjfs.Host.Keep

What keeps a host in order: a tree that only lost dentries, and a tree with
one new leaf.  Together with the equations of `Wjfs.Host.Create` and
`Wjfs.Host.Remove` this covers every call that makes or removes a name.
-/

namespace Wjfs

namespace Host

variable {pin pin' : Ptr → Nat} {h h' : Host} {env : Env} {path : List Bytes} {name : Bytes}
  {dir di i k : Ptr} {d : Dentry} {mode : Mode}

/-- The inode of a dentry that both hosts have. -/
theorem dInode?_eq {x y : Option Ptr × Dentry} (hn : h.dcache.ptrs.Nodup)
    (hn' : h'.dcache.ptrs.Nodup) (hx : x ∈ h.dcache.nodes) (hy : y ∈ h'.dcache.nodes)
    (hptr : x.2.ptr = y.2.ptr) (hino : x.2.dInode = y.2.dInode) :
    h'.dInode? y.2.ptr = h.dInode? y.2.ptr := by
  have h1 : h'.dentryOf? y.2.ptr = some y := Dcache.node?_of_mem hn' hy
  have h2 : h.dentryOf? y.2.ptr = some x := by
    rw [← hptr]
    exact Dcache.node?_of_mem hn hx
  rw [dInode?, dInode?, h1, h2]
  exact hino.symm

/-- Writing an inode changes no kind, if the one written keeps its own. -/
theorem sameKind_setInode {g : Inode → Inode} (j : Ptr)
    (hg : j = i → (g (h.inodes j)).SameKind (h.inodes j)) :
    ((h.setInode i g).inodes j).SameKind (h.inodes j) := by
  unfold Host.setInode
  by_cases hji : j = i
  · subst hji
    simp only [if_true]
    exact hg rfl
  · simp only [if_neg hji]
    exact ⟨rfl, rfl, rfl⟩

namespace Tidy

/-- A host whose dentries all come from another one is in order if its
references are, and if all hang below directories. -/
theorem relocated (ht : h.Tidy pin) (hs : h'.dcache.Sound h'.root h'.opens pin')
    (horigin : ∀ y ∈ h'.dcache.nodes, ∃ x ∈ h.dcache.nodes, x.2.ptr = y.2.ptr ∧
      x.2.dInode = y.2.dInode)
    (hplace : ∀ p d, (some p, d) ∈ h'.dcache.nodes → Live d ∧
      ∃ i, h.dInode? p = some i ∧ (h.inodes i).isDir = true)
    (hroot : h'.root = h.root) (hnext : h.nextPtr ≤ h'.nextPtr)
    (hfile : ∀ k ∈ h'.files, k < h'.nextPtr)
    (hkind : ∀ x ∈ h'.dcache.nodes, ∀ i, x.2.dInode = some i →
      (h'.inodes i).SameKind (h.inodes i)) : h'.Tidy pin' := by
  have hdir : ∀ k ∈ h'.dcache.ptrs, (∃ i, h.dInode? k = some i ∧ (h.inodes i).isDir = true) →
      ∃ i, h'.dInode? k = some i ∧ (h'.inodes i).isDir = true := by
    rintro k hk ⟨i, hi, hd⟩
    obtain ⟨y, hy, rfl⟩ := Forest.exists_mem_flat hk none
    obtain ⟨x, hx, hptr, hino⟩ := horigin y hy
    rw [← dInode?_eq ht.sound.nodup hs.nodup hx hy hptr hino] at hi
    obtain ⟨z, hz, hzi⟩ := Ready.exists_dentry hi
    exact ⟨i, hi, by rw [(hkind z (Dcache.mem_nodes_of_node? hz) i hzi).isDir]; exact hd⟩
  refine ⟨⟨hs.nodup, hs.pos, fun p d hd => (hplace p d hd).1, ?_, ?_, ?_⟩, hs, hfile, ?_, ?_, ?_⟩
  · intro y hy
    obtain ⟨x, hx, hptr, -⟩ := horigin y hy
    exact Nat.lt_of_lt_of_le (hptr ▸ ht.ready.ptr_lt x hx) hnext
  · intro y hy i hi
    obtain ⟨x, hx, -, hino⟩ := horigin y hy
    exact Nat.lt_of_lt_of_le (ht.ready.inode_lt x hx i (hino.trans hi)) hnext
  · intro y hy i hi
    obtain ⟨x, hx, -, hino⟩ := horigin y hy
    obtain ⟨hmode, hdead, -⟩ := hkind y hy i hi
    rw [hmode, hdead]
    exact ht.ready.alive x hx i (hino.trans hi)
  · exact fun p d hd => hdir p (Dcache.parent_mem_ptrs hd) (hplace p d hd).2
  · refine hdir _ hs.root_mem ?_
    rw [hroot]
    exact ht.root_dir
  · intro y hy y' hy' i hyi hyi' hd
    obtain ⟨x, hx, hptr, hino⟩ := horigin y hy
    obtain ⟨x', hx', hptr', hino'⟩ := horigin y' hy'
    have heq := ht.dir_unique x hx x' hx' i (hino.trans hyi) (hino'.trans hyi')
      (by rw [← (hkind y hy i hyi).isDir]; exact hd)
    exact Forest.eq_of_mem_flat hs.nodup hy hy' (by rw [← hptr, ← hptr', heq])

/-- A host that only lost dentries is in order if its references are. -/
theorem within (ht : h.Tidy pin) (hs : h'.dcache.Sound h'.root h'.opens pin')
    (hw : Dcache.Within h'.dcache h.dcache) (hroot : h'.root = h.root)
    (hnext : h.nextPtr ≤ h'.nextPtr) (hfile : ∀ k ∈ h'.files, k < h'.nextPtr)
    (hkind : ∀ x ∈ h'.dcache.nodes, ∀ i, x.2.dInode = some i →
      (h'.inodes i).SameKind (h.inodes i)) : h'.Tidy pin' := by
  refine ht.relocated hs (fun y hy => ?_) (fun p d hd => ?_) hroot hnext hfile hkind
  · obtain ⟨c, hc⟩ := hw y hy
    exact ⟨_, hc, rfl, rfl⟩
  · obtain ⟨c, hc⟩ := hw _ hd
    exact ⟨ht.ready.live p (d.withCount c) hc, ht.dirs p _ hc⟩

/-- A call that leaves no trace. -/
theorem noTrace (ht : h.Tidy pin) (hno : h.NoTrace h') : h'.Tidy pin := by
  obtain ⟨n, hn, rfl⟩ := hno
  exact ht.within ht.sound (Dcache.Within.refl _) rfl hn
    (fun k hk => Nat.lt_of_lt_of_le (ht.file_lt k hk) hn) fun _ _ _ _ => ⟨rfl, rfl, rfl⟩

/-- A host with a new leaf is in order if the leaf's inode is: it lives, and
if it is a directory, it has no other name. -/
theorem plant (ht : h.Tidy pin) (hdcache : h'.dcache = h.dcache.plant dir d)
    (hroot : h'.root = h.root) (hfiles : h'.files = h.files) (hnext : h.nextPtr ≤ h'.nextPtr)
    (hptr : h.nextPtr ≤ d.ptr ∧ d.ptr < h'.nextPtr) (hlive : Live d) (hcount : d.dCount = 1)
    (hdir : h.dInode? dir = some di) (hisdir : (h.inodes di).isDir = true)
    (hi : d.dInode = some i) (hlt : i < h'.nextPtr)
    (halive : (h'.inodes i).dead = false ∧ (h'.inodes i).iMode.isZero = false)
    (honly : (h'.inodes i).isDir = true → ∀ x ∈ h.dcache.nodes, x.2.dInode ≠ some i)
    (hkind : ∀ x ∈ h.dcache.nodes, ∀ j, x.2.dInode = some j →
      (h'.inodes j).SameKind (h.inodes j)) : h'.Tidy (Function.update pin d.ptr 1) := by
  have hn := ht.sound.nodup
  obtain ⟨z, hz, hzi⟩ := Ready.exists_dentry hdir
  have hp := Dcache.mem_ptrs_of_node? hz
  have hnew : d.ptr ∉ h.dcache.ptrs := by
    intro hm
    obtain ⟨x, hx, hxd⟩ := Forest.exists_mem_flat hm none
    exact Nat.not_lt_of_le hptr.1 (hxd ▸ ht.ready.ptr_lt x hx)
  have hopen : h.opens d.ptr = 0 :=
    List.count_eq_zero.mpr fun hm => Nat.not_lt_of_le hptr.1 (ht.file_lt _ hm)
  have hs : h'.dcache.Sound h'.root h'.opens (Function.update pin d.ptr 1) := by
    have hopens : h'.opens = h.opens := by unfold opens; rw [hfiles]
    rw [hdcache, hroot, hopens]
    exact ht.sound.plant hp hnew hlive.2.1 hcount hopen
  -- a node of the new tree is the leaf, or an old one up to its count
  have hmem : ∀ x ∈ h'.dcache.nodes, x = (some dir, d) ∨ h.dcache.Has x := by
    intro x hx
    rw [hdcache] at hx
    rcases (Dcache.mem_nodes_plant hn hp).mp hx with rfl | hx
    · exact .inl rfl
    · exact .inr (Dcache.within_update (fun _ => ⟨_, rfl⟩) x hx)
  have hino : ∀ k ∈ h.dcache.ptrs, h'.dInode? k = h.dInode? k := by
    intro k hk
    obtain ⟨x, hx, rfl⟩ := Forest.exists_mem_flat hk none
    obtain ⟨c, hc⟩ := Dcache.has_update (k := dir) (fun d => ⟨_, rfl⟩ : ∀ d : Dentry, ∃ c,
      d.get = d.withCount c) hx
    have hx' : (x.1, x.2.withCount c) ∈ h'.dcache.nodes := by
      rw [hdcache]
      exact (Dcache.mem_nodes_plant hn hp).mpr (.inr hc)
    have h1 : h'.dentryOf? x.2.ptr = some (x.1, x.2.withCount c) :=
      Dcache.node?_of_mem hs.nodup hx'
    have h2 : h.dentryOf? x.2.ptr = some x := Dcache.node?_of_mem hn hx
    rw [dInode?, dInode?, h1, h2]
    rfl
  have hdirs : ∀ k ∈ h.dcache.ptrs, (∃ j, h.dInode? k = some j ∧ (h.inodes j).isDir = true) →
      ∃ j, h'.dInode? k = some j ∧ (h'.inodes j).isDir = true := by
    rintro k hk ⟨j, hj, hd⟩
    obtain ⟨x, hx, hxj⟩ := Ready.exists_dentry hj
    exact ⟨j, by rw [hino k hk]; exact hj,
      by rw [(hkind x (Dcache.mem_nodes_of_node? hx) j hxj).isDir]; exact hd⟩
  refine ⟨⟨hs.nodup, hs.pos, ?_, ?_, ?_, ?_⟩, hs, ?_, ?_, ?_, ?_⟩
  · intro p e he
    rcases hmem _ he with heq | ⟨c, hc⟩
    · cases heq
      exact hlive
    · exact ht.ready.live p (e.withCount c) hc
  · intro x hx
    rcases hmem x hx with rfl | ⟨c, hc⟩
    · exact hptr.2
    · exact Nat.lt_of_lt_of_le (ht.ready.ptr_lt (x.1, x.2.withCount c) hc) hnext
  · intro x hx j hj
    rcases hmem x hx with rfl | ⟨c, hc⟩
    · rw [hi] at hj
      cases hj
      exact hlt
    · exact Nat.lt_of_lt_of_le (ht.ready.inode_lt _ hc j hj) hnext
  · intro x hx j hj
    rcases hmem x hx with rfl | ⟨c, hc⟩
    · rw [hi] at hj
      cases hj
      exact halive
    · obtain ⟨hmode, hdead, -⟩ := hkind _ hc j hj
      rw [hmode, hdead]
      exact ht.ready.alive _ hc j hj
  · rw [hfiles]
    exact fun k hk => Nat.lt_of_lt_of_le (ht.file_lt k hk) hnext
  · intro p e he
    rcases hmem _ he with heq | ⟨c, hc⟩
    · cases heq
      exact hdirs _ hp ⟨di, hdir, hisdir⟩
    · exact hdirs p (Dcache.parent_mem_ptrs hc) (ht.dirs p _ hc)
  · rw [hroot]
    exact hdirs _ ht.sound.root_mem ht.root_dir
  · -- only the new leaf names a new directory
    intro x hx y hy j hxj hyj hd
    have hold : ∀ z, h.dcache.Has z → z.2.dInode = some j → i ≠ j := by
      rintro z ⟨c, hc⟩ hzj rfl
      exact honly hd _ hc hzj
    rcases hmem x hx with rfl | hx1 <;> rcases hmem y hy with rfl | hy1
    · rfl
    · exact absurd (Option.some.inj (hi.symm.trans hxj)) (hold y hy1 hyj)
    · exact absurd (Option.some.inj (hi.symm.trans hyj)) (hold x hx1 hxj)
    · obtain ⟨c, hc⟩ := hx1
      obtain ⟨b, hb⟩ := hy1
      have heq := ht.dir_unique _ hc _ hb j hxj hyj (by rw [← (hkind _ hc j hxj).isDir]; exact hd)
      have hptr : x.2.ptr = y.2.ptr := by
        simpa using congrArg (fun z : Option Ptr × Dentry => z.2.ptr) heq
      have h1 := Dcache.node?_of_mem hs.nodup hx
      rw [hptr, Dcache.node?_of_mem hs.nodup hy] at h1
      exact (Option.some.inj h1).symm

/-! ## inodes and frames -/

theorem setInode (ht : h.Tidy pin) {g : Inode → Inode}
    (hg : ∀ x ∈ h.dcache.nodes, x.2.dInode = some i → (g (h.inodes i)).SameKind (h.inodes i)) :
    (h.setInode i g).Tidy pin := by
  refine ht.within ht.sound (Dcache.Within.refl _) rfl (Nat.le_refl _) ht.file_lt ?_
  exact fun x hx j hj => sameKind_setInode j (by rintro rfl; exact hg x hx hj)

theorem incNlink (ht : h.Tidy pin) (i : Ptr) : (h.setInode i Inode.incNlink).Tidy pin :=
  ht.setInode fun _ _ _ => ⟨rfl, rfl, rfl⟩

theorem dropNlink (ht : h.Tidy pin) (i : Ptr) : (h.setInode i Inode.dropNlink).Tidy pin :=
  ht.setInode fun _ _ _ => ⟨rfl, rfl, rfl⟩

theorem send (ht : h.Tidy pin) (frame : Bytes) : (h.send env frame).Tidy pin := by
  unfold Host.send
  split
  · exact ht.within ht.sound (Dcache.Within.refl _) rfl (Nat.le_refl _) ht.file_lt
      fun _ _ _ _ => ⟨rfl, rfl, rfl⟩
  · exact ht

theorem setTable (ht : h.Tidy pin) (table : Table) : ({ h with table := table } : Host).Tidy pin :=
  ht.within ht.sound (Dcache.Within.refl _) rfl (Nat.le_refl _) ht.file_lt
    fun _ _ _ _ => ⟨rfl, rfl, rfl⟩

/-! ## new names -/

/-- A new file, pinned once. -/
theorem made (ht : h.Tidy pin) (hdir : h.dInode? dir = some di)
    (hisdir : (h.inodes di).isDir = true) (hz : mode.fmt ≠ .zero) :
    (h.made dir di name mode).Tidy (Function.update pin h.nextPtr 1) := by
  have hlt : ∀ x ∈ h.dcache.nodes, x.2.dInode ≠ some (h.nextPtr + 1) := fun x hx hxi =>
    Nat.lt_irrefl _ (Nat.lt_of_succ_lt (ht.ready.inode_lt x hx _ hxi))
  refine ht.plant (d := (liveDentry h.nextPtr name (h.nextPtr + 1)).withCount 1) rfl rfl rfl
    (Nat.le_add_right _ _) ⟨Nat.le_refl _, Nat.lt_add_of_pos_right (by decide)⟩
    ⟨rfl, rfl, rfl, rfl⟩ rfl hdir hisdir rfl (Nat.lt_succ_self _) ?_ (fun _ => hlt) ?_
  · simp only [Host.made, madeIn, if_true]
    exact ⟨dead_newInode .., isZero_newInode h di mode hz⟩
  · intro x hx j hj
    have hne : j ≠ h.nextPtr + 1 := fun heq => hlt x hx (heq ▸ hj)
    simp only [Host.made, madeIn, if_neg hne]
    exact ⟨rfl, rfl, rfl⟩

/-! ## names that go -/

/-- A leaf less. -/
theorem pruned (ht : h.Tidy pin) (hd : (some dir, d) ∈ h.dcache.nodes)
    (h0 : h.dcache.kids d.ptr = 0) : (h.pruned dir d.ptr).Tidy pin := by
  have hs := ht.sound.unlinkChild hd h0
  have hdir : dir ∈ (h.dcache.unlinkChild d.ptr).ptrs :=
    (Forest.parent_mem_keys_erase ht.sound.nodup hd).resolve_left (by simp)
  obtain ⟨hs', hw, -⟩ := hs.dput hdir
  exact ht.within hs' (hw.trans (ht.sound.within_unlinkChild h0)) rfl (Nat.le_refl _) ht.file_lt
    fun _ _ _ _ => ⟨rfl, rfl, rfl⟩

/-- The dentries that are left when a leaf was taken out of a pinned
directory. -/
theorem bare_pruned (ht : h.Tidy pin) (hd : (some dir, d) ∈ h.dcache.nodes)
    (h0 : h.dcache.kids d.ptr = 0) (hpin : 1 ≤ pin dir) :
    h.dcache.bare.Perm (Dcache.strip (some dir, d) :: (h.pruned dir d.ptr).dcache.bare) := by
  have hs := ht.sound.unlinkChild hd h0
  have hdir : dir ∈ (h.dcache.unlinkChild d.ptr).ptrs :=
    (Forest.parent_mem_keys_erase ht.sound.nodup hd).resolve_left (by simp)
  have hbare : (h.pruned dir d.ptr).dcache.bare = (h.dcache.unlinkChild d.ptr).bare :=
    hs.bare_dput hdir (by omega)
  rw [hbare]
  exact Dcache.bare_unlinkChild ht.sound.nodup hd h0

theorem unlinked (ht : h.Tidy pin) (hd : (some dir, d) ∈ h.dcache.nodes)
    (h0 : h.dcache.kids d.ptr = 0) : (h.unlinked env dir di i d).Tidy pin :=
  ((ht.pruned hd h0).dropNlink i).send _

/-- The inode of a directory that is gone has no other name, so it may well be
dead. -/
theorem rmdired (ht : h.Tidy pin) (hd : (some dir, d) ∈ h.dcache.nodes)
    (h0 : h.dcache.kids d.ptr = 0) (hi : d.dInode = some i) (hdir : (h.inodes i).isDir = true) :
    (h.rmdired env dir di i d).Tidy pin := by
  have hpruned := ht.pruned hd h0
  refine ((((hpruned.dropNlink i).dropNlink i).dropNlink di).send _).setInode ?_
  intro x hx hxi
  rw [dcache_send] at hx
  have hmem : (h.pruned dir d.ptr).dcache.Within (h.dcache.unlinkChild d.ptr) := by
    refine ((ht.sound.unlinkChild hd h0).dput ?_).2.1
    exact (Forest.parent_mem_keys_erase ht.sound.nodup hd).resolve_left (by simp)
  obtain ⟨c, hc⟩ := hmem x hx
  obtain ⟨hold, hne⟩ := (Dcache.mem_nodes_unlinkChild ht.sound.nodup h0).mp hc
  have heq := ht.dir_unique _ hold _ hd i hxi hi hdir
  exact absurd (congrArg (fun z : Option Ptr × Dentry => z.2.ptr) heq) hne

end Tidy

end Host

end Wjfs
