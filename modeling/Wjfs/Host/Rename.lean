import Wjfs.Dcache.Move
import Wjfs.Host.Link

/-!
# Wjfs.Host.Rename

`rename` on a host in order, all of whose dentries are pinned: it fails
without a trace, or moves one dentry with everything below it, over a leaf if
there was one in its way.
-/

namespace Wjfs

namespace Host

variable {pin : Ptr → Nat} {h h' g r : Host} {env : Env} {path : List Bytes} {name : Bytes}
  {p q oi ni i : Ptr} {d e : Dentry} {err : Option Errno}

/-! ## `vfs_rename` -/

/-- What a rename makes of the tree.  `target` says whether there is a file in
the way, `dir` whether it is directories. -/
def movedTree (t : Dcache) (d e : Ptr) (target dir : Bool) : Dcache :=
  match target, dir with
  | false, false => ((t.dget e).dMove d e).dput e
  | false, true => t.dMove d e
  | true, false => (t.dMove d e).dput e
  | true, true => (t.dput e).dMove d e

/-- What a rename makes of the inodes, `oi` and `ni` being those of the two
directories. -/
def movedInodes (h : Host) (oi ni : Ptr) (target : Option Ptr) (dir : Bool) : Host :=
  match target, dir with
  | none, false => h
  | none, true => (h.setInode oi Inode.dropNlink).setInode ni Inode.incNlink
  | some i, false => h.setInode i Inode.dropNlink
  | some i, true =>
      ((h.setInode i Inode.dropNlink).setInode oi Inode.dropNlink).setInode i Inode.setDead

/-- The host after `vfs_rename` went well. -/
def exchanged (h : Host) (oi ni : Ptr) (d e : Dentry) (dir : Bool) : Host :=
  (h.movedInodes oi ni e.dInode dir).mapDcache fun t =>
    movedTree t d.ptr e.ptr e.dInode.isSome dir

section Vfs

variable (hn : g.dcache.ptrs.Nodup) (hd : (some p, d) ∈ g.dcache.nodes) (hdm : d.dMounted = false)
  (hi : d.dInode = some i) (he : (some q, e) ∈ g.dcache.nodes) (hem : e.dMounted = false)
  (heu : e.dUnhashed = false) (hec : 1 ≤ e.dCount)

include hn in
theorem dentryOf?_of_mem {x : Option Ptr × Dentry} (hx : x ∈ g.dcache.nodes) :
    g.dentryOf? x.2.ptr = some x := Dcache.node?_of_mem hn hx

include hn in
theorem dInode?_of_mem {x : Option Ptr × Dentry} (hx : x ∈ g.dcache.nodes) :
    g.dInode? x.2.ptr = x.2.dInode := by
  rw [dInode?, dentryOf?_of_mem hn hx]
  rfl

/-- Holding a dentry does not make it a mount point. -/
theorem eitherMounted_dget (j k l : Ptr) :
    (g.dget l).eitherMounted j k = g.eitherMounted j k := by
  have hany : ∀ j, ((g.dget l).dentryOf? j).any (·.2.dMounted) =
      (g.dentryOf? j).any (·.2.dMounted) := by
    intro j
    change ((g.mapDcache (·.update l Dentry.get)).dentryOf? j).any _ = _
    rw [dentryOf?_update Dcache.keeps_get]
    cases g.dentryOf? j with
    | none => rfl
    | some x =>
        simp only [Option.map_some, Option.any_some]
        split <;> rfl
  unfold eitherMounted
  rw [hany, hany]

include hn hd hdm he hem in
theorem eitherMounted_eq_false : g.eitherMounted d.ptr e.ptr = false := by
  unfold eitherMounted
  rw [dentryOf?_of_mem hn hd, dentryOf?_of_mem hn he]
  simp [hdm, hem]

include hn hd hdm hi he hem hec in
theorem vfsRenameOther_cases (hfile : (g.inodes i).isDir = false)
    (hok : g.vfsRenameOther oi d.ptr ni e.ptr = .ok (r, err)) :
    r = g ∧ err ≠ none ∨
      g.dcache.simpleEmpty e.ptr = true ∧ r = g.exchanged oi ni d e false ∧ err = none := by
  have hdi : (g.dget e.ptr).dInode? d.ptr = some i := by
    rw [dInode?_dget, dInode?_of_mem hn hd, hi]
  have hei : (g.dget e.ptr).dInode? e.ptr = e.dInode := by
    rw [dInode?_dget, dInode?_of_mem hn he]
  have hback : (g.dget e.ptr).dput e.ptr = g :=
    dput_dget (dentryOf?_of_mem hn he) (by simp only; omega)
  have hse : (g.dget e.ptr).dcache.simpleEmpty e.ptr = g.dcache.simpleEmpty e.ptr :=
    Dcache.simpleEmpty_update Dcache.keeps_get fun _ => rfl
  unfold vfsRenameOther renameUnmounted wjfsRename at hok
  simp only [eitherMounted_dget, eitherMounted_eq_false hn hd hdm he hem, Bool.false_eq_true,
    if_false, inodeOf?, hdi, Option.map_some, hse, hei, inodes_dget, hfile] at hok
  cases hempty : g.dcache.simpleEmpty e.ptr with
  | false =>
      simp [hempty, bind, Except.bind, moveOnSuccess, hback] at hok
      exact .inl ⟨hok.1.symm, hok.2 ▸ Option.some_ne_none _⟩
  | true =>
      cases hte : e.dInode with
      | none =>
          simp [hempty, hte, bind, Except.bind, moveOnSuccess] at hok
          refine .inr ⟨rfl, ?_, hok.2.symm⟩
          rw [← hok.1, exchanged, hte]
          rfl
      | some te =>
          simp [hempty, hte, bind, Except.bind, moveOnSuccess, simpleUnlink, dput_setInode,
            hback] at hok
          refine .inr ⟨rfl, ?_, hok.2.symm⟩
          rw [← hok.1, exchanged, hte]
          rfl

include hn hd hdm hi he hem heu hec in
theorem vfsRenameDir_cases (hdir : (g.inodes i).isDir = true)
    (htarget : e.dInode.isSome = true → e.dCount ≠ 1)
    (hok : g.vfsRenameDir env oi d.ptr ni e.ptr = .ok (r, err)) :
    r = g ∧ err ≠ none ∨
      g.dcache.simpleEmpty e.ptr = true ∧ r = g.exchanged oi ni d e true ∧ err = none := by
  have hdi : g.dInode? d.ptr = some i := (dInode?_of_mem hn hd).trans hi
  have hei : g.dInode? e.ptr = e.dInode := dInode?_of_mem hn he
  have hback : (g.dget e.ptr).dput e.ptr = g :=
    dput_dget (dentryOf?_of_mem hn he) (by simp only; omega)
  have hse : (g.dget e.ptr).dcache.simpleEmpty e.ptr = g.dcache.simpleEmpty e.ptr :=
    Dcache.simpleEmpty_update Dcache.keeps_get fun _ => rfl
  have hmount := eitherMounted_eq_false hn hd hdm he hem
  unfold vfsRenameDir at hok
  simp only [inodeOf?, hdi, Option.map_some, hei] at hok
  split at hok
  · cases hok
    exact .inl ⟨rfl, Option.some_ne_none _⟩
  cases hte : e.dInode with
  | none =>
      simp only [hte, renameUnmounted, hmount, Bool.false_eq_true, if_false, wjfsRename, inodeOf?,
        hdi, Option.map_some, hdir, if_true, hei] at hok
      cases hempty : g.dcache.simpleEmpty e.ptr with
      | false =>
          simp [hempty, bind, Except.bind, moveOnSuccess] at hok
          exact .inl ⟨hok.1.symm, hok.2 ▸ Option.some_ne_none _⟩
      | true =>
          simp [hempty, bind, Except.bind, moveOnSuccess] at hok
          refine .inr ⟨rfl, ?_, hok.2.symm⟩
          rw [← hok.1, exchanged, hte]
          rfl
  | some te =>
      have hun : g.mapDcache (·.dentryUnhash e.ptr) = g.dget e.ptr :=
        mapDcache_congr (Dcache.dentryUnhash_of_ne_one hn (Dcache.node?_of_mem hn he)
          (htarget (by rw [hte]; rfl)))
      -- the target is hashed, so `d_rehash` finds nothing to do
      have hre : ∀ g' : Host, g'.dcache = g.dcache →
          g'.mapDcache (·.update e.ptr Dentry.rehash) = g' ∧
          (g'.dget e.ptr).mapDcache (·.update e.ptr Dentry.rehash) = g'.dget e.ptr := by
        intro g' hg'
        have hnode : g'.dcache.node? e.ptr = some (some q, e) := by
          rw [hg']
          exact Dcache.node?_of_mem hn he
        have hn' : g'.dcache.ptrs.Nodup := by rw [hg']; exact hn
        constructor
        · exact mapDcache_congr (G := fun t => t) (Dcache.update_eq_self hn' hnode
            (by simp [Dentry.rehash, ← heu]))
        · exact mapDcache_congr (h := g'.dget e.ptr) (G := fun t => t)
            (Dcache.update_eq_self (by simpa using hn')
              (Dcache.node?_update_self Dcache.keeps_get hnode)
              (by simp [Dentry.rehash, Dentry.get, ← heu]))
      simp only [hte, hun, renameUnmounted, eitherMounted_dget, hmount, Bool.false_eq_true,
        if_false, wjfsRename, inodeOf?, dInode?_dget, hdi, Option.map_some, inodes_dget, hdir,
        if_true, hse, hei] at hok
      cases hempty : g.dcache.simpleEmpty e.ptr with
      | false =>
          simp [hempty, bind, Except.bind, moveOnSuccess, (hre g rfl).2, hback] at hok
          exact .inl ⟨hok.1.symm, hok.2 ▸ Option.some_ne_none _⟩
      | true =>
          simp [hempty, bind, Except.bind, moveOnSuccess, simpleUnlink, dput_setInode, hback] at hok
          rw [(hre (((g.setInode te Inode.dropNlink).setInode oi Inode.dropNlink).setInode te
            Inode.setDead) rfl).1] at hok
          refine .inr ⟨rfl, ?_, hok.2.symm⟩
          rw [← hok.1, exchanged, hte]
          rfl

include hn hd hdm hi he hem heu hec in
/-- `vfs_rename` changes nothing, because it fails or because both dentries are
the same file, or it exchanges the two dentries; if there is a file in the way,
it is of the same kind. -/
theorem vfsRename_cases (htarget : e.dInode.isSome = true → e.dCount ≠ 1)
    (hok : g.vfsRename env oi d.ptr ni e.ptr = .ok (r, err)) :
    r = g ∧ (err ≠ none ∨ e.dInode = some i) ∨
      g.dcache.simpleEmpty e.ptr = true ∧ e.dInode ≠ some i ∧
      (∀ te, e.dInode = some te → (g.inodes te).isDir = (g.inodes i).isDir) ∧
      r = g.exchanged oi ni d e (g.inodes i).isDir ∧ err = none := by
  have hdi : g.dInode? d.ptr = some i := (dInode?_of_mem hn hd).trans hi
  have hei : g.dInode? e.ptr = e.dInode := dInode?_of_mem hn he
  unfold vfsRename at hok
  simp only [inodeOf?, hdi, Option.map_some] at hok
  by_cases hsame : some i = g.dInode? e.ptr
  · rw [if_pos hsame] at hok
    cases hok
    exact .inl ⟨rfl, .inr (hei.symm.trans hsame.symm)⟩
  rw [if_neg hsame] at hok
  split at hok
  · cases hok
    exact .inl ⟨rfl, .inl (Option.some_ne_none _)⟩
  split at hok
  · cases hok
    exact .inl ⟨rfl, .inl (Option.some_ne_none _)⟩
  next hmay =>
  have hkind : ∀ te, e.dInode = some te → (g.inodes te).isDir = (g.inodes i).isDir := by
    intro te hte
    rw [hei, hte] at hmay
    exact isDir_of_mayDelete (hei.trans hte) (by simpa using hmay)
  have hne : e.dInode ≠ some i := by
    rw [← hei]
    exact Ne.symm hsame
  cases hdir : (g.inodes i).isDir with
  | true =>
      rw [hdir, if_pos rfl] at hok
      rcases vfsRenameDir_cases hn hd hdm hi he hem heu hec hdir htarget hok with h | ⟨h1, h2, h3⟩
      · exact .inl ⟨h.1, .inl h.2⟩
      · exact .inr ⟨h1, hne, by simpa [hdir] using hkind, h2, h3⟩
  | false =>
      rw [hdir, if_neg (by simp)] at hok
      rcases vfsRenameOther_cases hn hd hdm hi he hem hec hdir hok with h | ⟨h1, h2, h3⟩
      · exact .inl ⟨h.1, .inl h.2⟩
      · exact .inr ⟨h1, hne, by simpa [hdir] using hkind, h2, h3⟩

end Vfs

/-! ## the tree after a rename -/

/-- All four shapes of a rename exchange the two dentries and leave the target
with the reference of the call alone. -/
theorem movedTree_sound {t : Dcache} {root : Ptr} {ext pin : Ptr → Nat} {target : Bool}
    (h : t.Sound root (Dcache.bump ext e.ptr) pin) (hpin : pin e.ptr = if target then 1 else 0)
    (hr : e.ptr ≠ root) (hd : (some p, d) ∈ t.nodes) (he : (some q, e) ∈ t.nodes)
    (hde : d.ptr ≠ e.ptr) (h0 : t.kids e.ptr = 0) (hqd : q ≠ d.ptr)
    (hq : q ∉ Forest.keys Dentry.ptr (t.subdirs d.ptr)) (dir : Bool) :
    (movedTree t d.ptr e.ptr target dir).Sound root (Dcache.bump ext e.ptr)
        (Function.update pin e.ptr 0) ∧
      (movedTree t d.ptr e.ptr target dir).kids e.ptr = 0 ∧
      ∃ rest, t.bare.Perm (Dcache.strip (some p, d) :: Dcache.strip (some q, e) :: rest) ∧
        (movedTree t d.ptr e.ptr target dir).bare.Perm
          (Dcache.strip (some q, { d.rehash with dName := e.dName }) ::
            Dcache.strip (some p, { e.drop with
              dName := Dcache.switchedName d.dName e.dName }) :: rest) := by
  have hem := Dcache.mem_ptrs_of_mem he
  cases target with
  | false =>
      have hpin0 : Function.update pin e.ptr 0 = pin := Function.update_eq_self_iff.mpr
        (by simpa using hpin.symm)
      rw [hpin0]
      cases dir with
      | true => exact h.dMove hd he hde h0 hqd hq
      | false =>
          -- the tree with one more reference to the target
          have h1 := h.dget hem
          have hd1 : (some p, d) ∈ (t.dget e.ptr).nodes := by
            rw [Dcache.dget, Dcache.nodes_update Dcache.keeps_get]
            exact List.mem_map.mpr ⟨_, hd, by simp [hde]⟩
          have he1 : (some q, e.get) ∈ (t.dget e.ptr).nodes := by
            rw [Dcache.dget, Dcache.nodes_update Dcache.keeps_get]
            exact List.mem_map.mpr ⟨_, he, by simp⟩
          have h01 : (t.dget e.ptr).kids e.ptr = 0 := (Dcache.kids_update Dcache.keeps_get).trans h0
          have hq1 : q ∉ Forest.keys Dentry.ptr ((t.dget e.ptr).subdirs d.ptr) := by
            rw [Dcache.dget, Dcache.keys_subdirs_update Dcache.keeps_get]
            exact hq
          obtain ⟨-, -, rest, hb, hb'⟩ := h1.dMove hd1 he1 hde h01 hqd hq1
          obtain ⟨hs, hk, hbare⟩ := Dcache.Sound.dMove_dput (e := e.get) h1 hd1 he1 hde h01 hqd hq1
          rw [Dcache.bare_dget] at hb
          exact ⟨hs, hk, rest, hb, by rw [← hbare] at hb'; exact hb'⟩
  | true =>
      have h1 := h.unpin hr (by simpa using hpin)
      cases dir with
      | false =>
          obtain ⟨-, -, rest, hb, hb'⟩ := h1.dMove hd he hde h0 hqd hq
          obtain ⟨hs, hk, hbare⟩ := h1.dMove_dput hd he hde h0 hqd hq
          exact ⟨hs, hk, rest, hb, by rw [← hbare] at hb'; exact hb'⟩
      | true =>
          -- the pin goes before the exchange
          have hcount := h1.count _ he
          simp only [Dcache.bump, if_true, Function.update_self] at hcount
          have hdput : t.dput e.ptr = t.update e.ptr Dentry.dec :=
            Dcache.dput_of_ne_one (Dcache.node?_of_mem h.nodup he) (by simp only; omega)
          have h2 := (h1.dput hem).1
          rw [hdput] at h2
          have hd2 : (some p, d) ∈ (t.update e.ptr Dentry.dec).nodes := by
            rw [Dcache.nodes_update Dcache.keeps_dec]
            exact List.mem_map.mpr ⟨_, hd, by simp [hde]⟩
          have he2 : (some q, e.dec) ∈ (t.update e.ptr Dentry.dec).nodes := by
            rw [Dcache.nodes_update Dcache.keeps_dec]
            exact List.mem_map.mpr ⟨_, he, by simp⟩
          have h02 : (t.update e.ptr Dentry.dec).kids e.ptr = 0 :=
            (Dcache.kids_update Dcache.keeps_dec).trans h0
          have hq2 : q ∉ Forest.keys Dentry.ptr ((t.update e.ptr Dentry.dec).subdirs d.ptr) := by
            rw [Dcache.keys_subdirs_update Dcache.keeps_dec]
            exact hq
          have hmove := h2.dMove hd2 he2 hde h02 hqd hq2
          rw [Dcache.bare_update (f := Dentry.dec) fun _ => ⟨_, rfl⟩] at hmove
          unfold movedTree
          rw [hdput]
          exact hmove

/-- The tree after a rename and the four `dput`s that end it. -/
theorem movedTree_dputs {t : Dcache} {root : Ptr} {ext pin : Ptr → Nat} {target : Bool}
    (h : t.Sound root (Dcache.bump (Dcache.bump (Dcache.bump (Dcache.bump ext p) q) d.ptr) e.ptr)
      pin)
    (hpin : pin e.ptr = if target then 1 else 0) (hr : e.ptr ≠ root) (hext : ext e.ptr = 0)
    (hd : (some p, d) ∈ t.nodes) (he : (some q, e) ∈ t.nodes)
    (hde : d.ptr ≠ e.ptr) (h0 : t.kids e.ptr = 0) (hqd : q ≠ d.ptr)
    (hq : q ∉ Forest.keys Dentry.ptr (t.subdirs d.ptr))
    (hall : ∀ k ∈ t.ptrs, k ≠ e.ptr → 1 ≤ pin k) (dir : Bool) :
    ∃ t' rest,
      t' = ((((movedTree t d.ptr e.ptr target dir).dput e.ptr).dput d.ptr).dput q).dput p ∧
      t'.Sound root ext pin ∧
      t.bare.Perm (Dcache.strip (some p, d) :: Dcache.strip (some q, e) :: rest) ∧
      t'.bare.Perm (Dcache.strip (some q, { d.rehash with dName := e.dName }) :: rest) := by
  obtain ⟨hs, hk, rest, hb, hb'⟩ := movedTree_sound h hpin hr hd he hde h0 hqd hq dir
  generalize hT : movedTree t d.ptr e.ptr target dir = T at *
  have hptrs : ∀ k, k ∈ T.ptrs ↔ k ∈ t.ptrs := by
    intro k
    rw [← Dcache.map_ptr_bare, ← Dcache.map_ptr_bare, (hb.map _).mem_iff, (hb'.map _).mem_iff]
    rfl
  have hpe : p ≠ e.ptr := by
    rintro rfl
    exact Nat.ne_of_gt (Dcache.kids_pos_of_mem hd) h0
  have hqe : q ≠ e.ptr := Dcache.parent_ne_ptr h.nodup he
  have hpin' : ∀ k ∈ t.ptrs, k ≠ e.ptr → 1 ≤ Function.update pin e.ptr 0 k := by
    intro k hk hne
    rw [Function.update_of_ne hne]
    exact hall k hk hne
  have hpm := Dcache.parent_mem_ptrs hd
  have hqm := Dcache.parent_mem_ptrs he
  have hdm := Dcache.mem_ptrs_of_mem hd
  have hem := Dcache.mem_ptrs_of_mem he
  obtain ⟨hfinal, hshrunk, hgone⟩ := hs.dput_four (by simp) hext hk ((hptrs _).mpr hem)
    ((hptrs _).mpr hdm) ((hptrs _).mpr hqm) ((hptrs _).mpr hpm) (hpin' _ hdm hde)
    (hpin' q hqm hqe) (hpin' p hpm hpe)
  refine ⟨_, rest, rfl, ?_, hb, ?_⟩
  · refine hfinal.congr (fun _ _ => rfl) fun k hk => Function.update_of_ne ?_ _ _
    rintro rfl
    exact hgone hk
  · exact Dcache.bare_of_shrunk hs.nodup hfinal.nodup hshrunk hgone
      (fun k hk => hpin' k ((hptrs k).mp hk)) rfl (hb'.trans (List.Perm.swap _ _ _))

/-! ## the parts of the call -/

/-- What a lookup gives: the dentry of that name with one more reference, or
a new negative one. -/
inductive Looked (g : Host) (dir : Ptr) (name : Bytes) : Host → Ptr → Prop
  | hit {d : Dentry} : g.dcache.dLookup dir d.dName = some d → d.dName = name →
      Looked g dir name (g.dget d.ptr) d.ptr
  | miss : g.dcache.dLookup dir name = none →
      Looked g dir name (g.looked g.dcache dir name) g.nextPtr

theorem withParent_inv {call : Host → Ptr → Outcome}
    (hok : h.withParent env path call = .ok (h', err)) :
    h' = h ∨ ∃ dir di r, h.walk env h.root path = .ok dir ∧ h.dInode? dir = some di ∧
      (h.inodes di).isDir = true ∧ call (h.dget dir) dir = .ok (r, err) ∧ h' = r.dput dir := by
  cases hw : h.walk env h.root path with
  | error e =>
      rw [withParent, hw] at hok
      cases hok
      exact .inl rfl
  | ok dir =>
      obtain ⟨di, hdi, hdir⟩ := isDir_of_walk hw
      rw [withParent_of_walk hw] at hok
      cases hr : call (h.dget dir) dir with
      | error f => rw [hr] at hok; cases hok
      | ok r =>
          rw [hr] at hok
          cases hok
          exact .inr ⟨dir, di, r.1, rfl, hdi, hdir, hr, rfl⟩

section Parts

variable {dir di k : Ptr} (ht : h.Ready) (hdi : h.dInode? dir = some di)
  (hdir : (h.inodes di).isDir = true)
include ht hdi hdir

theorem withDentry_inv {call : Host → Ptr → Outcome}
    (hok : h.withDentry env dir name call = .ok (h', err)) :
    h.NoTrace h' ∨ ∃ g k r, h.Looked dir name g k ∧ call g k = .ok (r, err) ∧ h' = r.dput k := by
  obtain ⟨x, hx, hxi⟩ := Ready.exists_dentry hdi
  have hxm := Dcache.mem_nodes_of_node? hx
  obtain ⟨m, e, hm, heq⟩ | ⟨d, hl, heq⟩ | ⟨hl, -, heq⟩ := withDentry_cases env name call ht.nodup hx
    (ht.pos x hxm) (n := h.inodes di) (by simp [inodeOf?, hdi]) hdir (ht.alive x hxm di hxi).1
    ht.nextPtr_not_mem
  · rw [heq] at hok
    cases hok
    exact .inl ⟨m, hm, rfl⟩
  · rw [heq] at hok
    cases hr : call (h.dget d.ptr) d.ptr with
    | error f => rw [hr] at hok; cases hok
    | ok r =>
        rw [hr] at hok
        cases hok
        have hname := (Dcache.dLookup_some hl).2.2
        exact .inr ⟨_, _, r.1, .hit (by rw [hname]; exact hl) hname, hr, rfl⟩
  · rw [heq] at hok
    cases hr : call (h.looked h.dcache dir name) h.nextPtr with
    | error f => rw [hr] at hok; cases hok
    | ok r =>
        rw [hr] at hok
        cases hok
        exact .inr ⟨_, _, r.1, .miss hl, hr, rfl⟩

omit hdir in
/-- A lookup whose result is given back leaves no trace. -/
theorem Looked.noTrace (hl : h.Looked dir name g k) : h.NoTrace (g.dput k) := by
  cases hl with
  | hit hl hname =>
      refine ⟨h.nextPtr, Nat.le_refl _, ?_⟩
      have hd := dentryOf?_of_dLookup ht.nodup hl
      have hpos := ht.pos _ (Dcache.mem_nodes_of_node? hd)
      exact dput_dget hd (by omega)
  | miss hl =>
      obtain ⟨x, hx, -⟩ := Ready.exists_dentry hdi
      have hpos := ht.pos x (Dcache.mem_nodes_of_node? hx)
      refine ⟨h.nextPtr + 1, Nat.le_succ _, ?_⟩
      have htree : (h.dcache.plant dir (negDentry h.nextPtr name)).dput h.nextPtr = h.dcache :=
        Dcache.dput_plant_last ht.nodup (Dcache.mem_ptrs_of_node? hx) ht.nextPtr_not_mem rfl hx
          (by omega) rfl (.inl rfl)
      exact congrArg (fun t => ({ h with dcache := t, nextPtr := h.nextPtr + 1 } : Host)) htree

end Parts

/-- A lookup does not change the inodes of dentries. -/
theorem Looked.dInode? {dir di k j i : Ptr} (hn : h.dcache.ptrs.Nodup)
    (hnew : h.nextPtr ∉ h.dcache.ptrs) (hdi : h.dInode? dir = some di)
    (hl : h.Looked dir name g k) (hj : h.dInode? j = some i) : g.dInode? j = some i := by
  cases hl with
  | hit hl hname => simpa using hj
  | miss hl =>
      obtain ⟨x, hx, -⟩ := Ready.exists_dentry hdi
      obtain ⟨y, hy, -⟩ := Ready.exists_dentry hj
      have hne : j ≠ h.nextPtr := fun heq => hnew (heq ▸ Dcache.mem_ptrs_of_node? hy)
      rw [dInode?_looked_ne hn hx hnew hne]
      exact hj

/-- What is left of a rename once its paths are walked and its names looked
up: `vfs_rename` of a dentry `d` in `p` to a name in `q`, and four `dput`s. -/
theorem sysRename_inv (ht : h.Ready) {oldPath newPath : List Bytes} {oldName newName : Bytes}
    (hok : h.sysRename env oldPath oldName newPath newName = .ok (h', err)) :
    h.NoTrace h' ∨ ∃ p oi q ni d g k r, h.Victim env oldPath p oi d ∧ d.dName = oldName ∧
      h.walk env h.root newPath = .ok q ∧ h.dInode? q = some ni ∧ (h.inodes ni).isDir = true ∧
      some d.ptr ≠ ((h.dget p).dget q).lockRename q p ∧
      (((h.dget p).dget q).dget d.ptr).Looked q newName g k ∧
      g.vfsRename env oi d.ptr ni k = .ok (r, err) ∧
      h' = (((r.dput k).dput d.ptr).dput q).dput p := by
  unfold sysRename at hok
  obtain rfl | ⟨p, oi, r1, hwp, hp, hpdir, hok1, rfl⟩ := withParent_inv hok
  · exact .inl ⟨_, Nat.le_refl _, rfl⟩
  have hpm : p ∈ h.dcache.ptrs := Dcache.mem_ptrs_of_node? (Ready.exists_dentry hp).choose_spec.1
  obtain rfl | ⟨q, ni, r2, hwq, hq, hqdir, hok2, rfl⟩ := withParent_inv hok1
  · exact .inl (NoTrace.dput ht hpm ⟨_, Nat.le_refl _, rfl⟩)
  have ht1 := ht.dget p
  have hqm : q ∈ (h.dget p).dcache.ptrs :=
    Dcache.mem_ptrs_of_node? (Ready.exists_dentry hq).choose_spec.1
  have ht2 := ht1.dget q
  -- whatever leaves no trace inside leaves none outside
  have hout : ∀ {g}, ((h.dget p).dget q).NoTrace g → h.NoTrace ((g.dput q).dput p) :=
    fun hno => NoTrace.dput ht hpm (NoTrace.dput ht1 hqm hno)
  split at hok2
  · cases hok2
    exact .inl (hout ⟨_, Nat.le_refl _, rfl⟩)
  have hp2 : ((h.dget p).dget q).dInode? p = some oi := by simpa using hp
  have hq2 : ((h.dget p).dget q).dInode? q = some ni := by simpa using hq
  obtain hno | ⟨g3, k3, r3, hl3, hok3, rfl⟩ := withDentry_inv ht2 hp2 hpdir hok2
  · exact .inl (hout hno)
  split at hok3
  · cases hok3
    exact .inl (hout (hl3.noTrace ht2 hp2))
  next hpos3 =>
  split at hok3
  · cases hok3
    exact .inl (hout (hl3.noTrace ht2 hp2))
  next htrap =>
  cases hl3 with
  | miss hmiss =>
      -- a negative dentry has no inode to rename
      obtain ⟨x, hx, -⟩ := Ready.exists_dentry hp2
      rw [dInode?_looked_new ht2.nodup hx ht2.nextPtr_not_mem] at hpos3
      simp at hpos3
  | @hit d hl hname =>
  have hd := dentryOf?_of_dLookup ht2.nodup hl
  have hdm : d.ptr ∈ ((h.dget p).dget q).dcache.ptrs := Dcache.mem_ptrs_of_node? hd
  have ht3 := ht2.dget d.ptr
  have hp3 : (((h.dget p).dget q).dget d.ptr).dInode? p = some oi := by simpa using hp
  have hq3 : (((h.dget p).dget q).dget d.ptr).dInode? q = some ni := by simpa using hq
  have hout3 : ∀ {g}, (((h.dget p).dget q).dget d.ptr).NoTrace g →
      h.NoTrace (((g.dput d.ptr).dput q).dput p) := fun hno => hout (NoTrace.dput ht2 hdm hno)
  obtain hno | ⟨g4, k4, r4, hl4, hok4, rfl⟩ := withDentry_inv ht3 hq3 hqdir hok3
  · exact .inl (hout3 hno)
  split at hok4
  · cases hok4
    exact .inl (hout3 (hl4.noTrace ht3 hq3))
  -- the second lookup does not change what the directories are
  rw [withInode_of_some (hl4.dInode? ht3.nodup ht3.nextPtr_not_mem hq3 hp3),
    withInode_of_some (hl4.dInode? ht3.nodup ht3.nextPtr_not_mem hq3 hq3)] at hok4
  -- the dentry as it was before it was held
  obtain ⟨c, hc, hdc⟩ := exists_dLookup_of_dget hl
  obtain ⟨b, hb, hcb⟩ := exists_dLookup_of_dget hc
  have hsame : d.ptr = b.ptr ∧ d.dName = b.dName := by
    rw [hdc, hcb]
    split <;> split <;> exact ⟨rfl, rfl⟩
  rw [hsame.2] at hb hname
  rw [hsame.1] at htrap hl4 hok4 ⊢
  exact .inr ⟨p, oi, q, ni, b, g4, k4, r4, ⟨hwp, hp, hb⟩, hname,
    (walk_dget ..).symm.trans hwq, by simpa using hq, hqdir, htrap, hl4, hok4, rfl⟩

/-! ## the call -/

/-- What a successful rename leaves: the dentry `d` of directory `p` is now a
child of directory `q` under another name, the leaf `gone` that was in the way
is not there any more, and everything else, `rest`, is where it was. -/
structure Renamed (pin : Ptr → Nat) (h h' : Host) (p oi q ni i : Ptr) (d d' : Dentry)
    (gone : Option Dentry) (rest : List (Option Ptr × Dentry)) : Prop where
  old : (some p, d) ∈ h.dcache.nodes
  inode : d.dInode = some i
  oldDir : h.dInode? p = some oi
  newDir : h.dInode? q = some ni
  isDir : (h.inodes ni).isDir = true
  same : d'.ptr = d.ptr ∧ d'.dInode = d.dInode ∧ Live d'
  target : ∀ e, gone = some e → (some q, e) ∈ h.dcache.nodes ∧ e.ptr ≠ d.ptr ∧
    h.dcache.kids e.ptr = 0 ∧
    ∃ te, e.dInode = some te ∧ te ≠ i ∧ (h.inodes te).isDir = (h.inodes i).isDir
  before : h.dcache.bare.Perm (Dcache.strip (some p, d) ::
    ((gone.map fun e => Dcache.strip (some q, e)).toList ++ rest))
  after : h'.dcache.bare.Perm (Dcache.strip (some q, d') :: rest)
  sound : h'.dcache.Sound h.root h.opens pin
  nextPtr : h.nextPtr ≤ h'.nextPtr
  eq : h' = { h.movedInodes oi ni (gone.bind Dentry.dInode) (h.inodes i).isDir with
    dcache := h'.dcache, nextPtr := h'.nextPtr }

/-- Which names a rename is about, and that it does not move a directory below
itself. -/
structure Route (env : Env) (h : Host) (oldPath : List Bytes) (oldName : Bytes)
    (newPath : List Bytes) (newName : Bytes) (p oi q : Ptr) (d d' : Dentry)
    (gone : Option Dentry) : Prop where
  old : h.Victim env oldPath p oi d
  dName : d.dName = oldName
  new : h.walk env h.root newPath = .ok q
  dName' : d'.dName = newName
  target : ∀ e, gone = some e → e.dName = newName
  free : gone = none → h.dcache.dLookup q newName = none
  below : q ≠ d.ptr ∧ q ∉ Forest.keys Dentry.ptr (h.dcache.subdirs d.ptr)

/-- A dentry that is not the trap of `lock_rename` may be moved: the new
directory is not below it. -/
theorem not_below_of_trap (hn : h.dcache.ptrs.Nodup) (hd : (some p, d) ∈ h.dcache.nodes)
    (htrap : some d.ptr ≠ h.lockRename q p) :
    q ≠ d.ptr ∧ q ∉ Forest.keys Dentry.ptr (h.dcache.subdirs d.ptr) := by
  rw [← not_or]
  intro hbelow
  by_cases hqp : q = p
  · subst hqp
    exact hbelow.elim (Dcache.parent_ne_ptr hn hd) (Dcache.parent_not_mem_subdirs hn hd)
  · refine htrap ?_
    rw [lockRename, if_neg hqp, Dcache.dAncestor_eq hn hd hbelow]
    rfl

/-- Nor is a target that is not the trap: the old directory is not below it. -/
theorem not_below_target_of_trap (hn : h.dcache.ptrs.Nodup) (he : (some q, e) ∈ h.dcache.nodes)
    (htrap : some e.ptr ≠ h.lockRename q p) :
    p ≠ e.ptr ∧ p ∉ Forest.keys Dentry.ptr (h.dcache.subdirs e.ptr) := by
  rw [← not_or]
  intro hbelow
  by_cases hqp : q = p
  · subst hqp
    exact hbelow.elim (Dcache.parent_ne_ptr hn he) (Dcache.parent_not_mem_subdirs hn he)
  · refine htrap ?_
    rw [lockRename, if_neg hqp, Dcache.dAncestor_eq_none hn he hbelow,
      Dcache.dAncestor_eq hn he hbelow]
    rfl

theorem movedInodes_with (t : Dcache) (n oi ni : Ptr) (target : Option Ptr) (dir : Bool) :
    ({ h with dcache := t, nextPtr := n } : Host).movedInodes oi ni target dir =
      { h.movedInodes oi ni target dir with dcache := t, nextPtr := n } := by
  cases target <;> cases dir <;> rfl

/-- What `vfs_rename` and the four `dput`s after it leave. -/
theorem exchanged_dputs (oi ni : Ptr) {t : Dcache} {n : Ptr} {dir : Bool}
    (hs : t.Sound h.root
      (Dcache.bump (Dcache.bump (Dcache.bump (Dcache.bump h.opens p) q) d.ptr) e.ptr) pin)
    (hpin : pin e.ptr = if e.dInode.isSome then 1 else 0) (hr : e.ptr ≠ h.root)
    (hopen : h.opens e.ptr = 0) (hd : (some p, d) ∈ t.nodes) (he : (some q, e) ∈ t.nodes)
    (hde : d.ptr ≠ e.ptr) (h0 : t.kids e.ptr = 0) (hqd : q ≠ d.ptr)
    (hq : q ∉ Forest.keys Dentry.ptr (t.subdirs d.ptr))
    (hall : ∀ k ∈ t.ptrs, k ≠ e.ptr → 1 ≤ pin k)
    (hg : g = { h with dcache := t, nextPtr := n })
    (heq : h' = ((((g.exchanged oi ni d e dir).dput e.ptr).dput d.ptr).dput q).dput p) :
    ∃ rest, h'.dcache.Sound h.root h.opens pin ∧
      t.bare.Perm (Dcache.strip (some p, d) :: Dcache.strip (some q, e) :: rest) ∧
      h'.dcache.bare.Perm (Dcache.strip (some q, { d.rehash with dName := e.dName }) :: rest) ∧
      h'.nextPtr = n ∧
      h' = { h.movedInodes oi ni e.dInode dir with
        dcache := h'.dcache, nextPtr := h'.nextPtr } := by
  obtain ⟨t', rest, ht', hsound, hb, hb'⟩ :=
    movedTree_dputs hs hpin hr hopen hd he hde h0 hqd hq hall dir
  have hh : h' = { h.movedInodes oi ni e.dInode dir with dcache := t', nextPtr := n } := by
    rw [heq, exchanged, hg, movedInodes_with, ht']
    rfl
  subst hh
  exact ⟨rest, hsound, hb, hb', rfl, rfl⟩

section Call

variable (ht : h.Tidy pin) (hpin : ∀ k ∈ h.dcache.ptrs, 1 ≤ pin k) (hfiles : h.files = [])
  {oldPath newPath : List Bytes} {oldName newName : Bytes}
include ht hpin hfiles

/-- **Renaming**: the call fails without a trace, or moves one dentry. -/
theorem sysRename_cases
    (hok : h.sysRename env oldPath oldName newPath newName = .ok (h', err)) :
    h.NoTrace h' ∨ err = none ∧ ∃ p oi q ni i d d' gone rest,
      Renamed pin h h' p oi q ni i d d' gone rest ∧
        h.Route env oldPath oldName newPath newName p oi q d d' gone := by
  obtain hno | ⟨p, oi, q, ni, d, g, k, r, hold, hname₀, hwq, hq, hqdir, htrap, hl, hvfs, rfl⟩ :=
    sysRename_inv ht.ready hok
  · exact .inl hno
  have hp := hold.inode
  have hd := hold.mem ht.sound.nodup
  have hpm : p ∈ h.dcache.ptrs := Dcache.parent_mem_ptrs hd
  have hqm : q ∈ h.dcache.ptrs := Dcache.mem_ptrs_of_node? (Ready.exists_dentry hq).choose_spec.1
  have hdm : d.ptr ∈ h.dcache.ptrs := Dcache.mem_ptrs_of_mem hd
  obtain ⟨i, hi⟩ := Option.isSome_iff_exists.mp (ht.ready.live p d hd).2.2.2
  have hlive := ht.ready.live p d hd
  have ht1 := ht.ready.dget p
  have ht2 := ht1.dget q
  have ht3 := ht2.dget d.ptr
  -- the new directory does not lie below the dentry
  have hbelow : q ≠ d.ptr ∧ q ∉ Forest.keys Dentry.ptr (h.dcache.subdirs d.ptr) := by
    obtain ⟨c, hc⟩ : ((h.dget p).dget q).dcache.Has (some p, d) := by
      simp only [dcache_dget, Dcache.has_iff_mem_bare, Dcache.bare_dget]
      exact Dcache.mem_bare_of_mem hd
    have hnb := not_below_of_trap (d := d.withCount c) ht2.nodup hc htrap
    simp only [dcache_dget, Dcache.dget, Dcache.keys_subdirs_update Dcache.keeps_get,
      Dentry.ptr_withCount] at hnb
    exact hnb
  have hs3 : (((h.dget p).dget q).dget d.ptr).dcache.Sound h.root
      (Dcache.bump (Dcache.bump (Dcache.bump h.opens p) q) d.ptr) pin :=
    ((ht.sound.dget hpm).dget (by simpa using hqm)).dget (by simpa using hdm)
  have hout : ∀ {g'}, (((h.dget p).dget q).dget d.ptr).NoTrace g' →
      h.NoTrace (((g'.dput d.ptr).dput q).dput p) := fun hno =>
    NoTrace.dput ht.ready hpm (NoTrace.dput ht1 (by simpa using hqm)
      (NoTrace.dput ht2 (by simpa using hdm) hno))
  have hq3 : (((h.dget p).dget q).dget d.ptr).dInode? q = some ni := by simpa using hq
  have hnoTrace := hout (hl.noTrace ht3 hq3)
  have hopen : ∀ k, h.opens k = 0 := fun k => by simp [opens, hfiles]
  cases hl with
  | @hit e hl hname =>
      have he3 : (some q, e) ∈ (((h.dget p).dget q).dget d.ptr).dcache.nodes :=
        Dcache.mem_nodes_of_node? (dentryOf?_of_dLookup ht3.nodup hl)
      obtain ⟨b, hb⟩ : h.dcache.Has (some q, e) := by
        have := Dcache.Has.of_mem he3
        simpa only [dcache_dget, Dcache.has_iff_mem_bare, Dcache.bare_dget] using this
      have he : (some q, e.get) ∈
          ((((h.dget p).dget q).dget d.ptr).dget e.ptr).dcache.nodes := by
        rw [dcache_dget, Dcache.dget, Dcache.nodes_update Dcache.keeps_get]
        exact List.mem_map.mpr ⟨_, he3, by simp⟩
      obtain ⟨c, hc⟩ : ((((h.dget p).dget q).dget d.ptr).dget e.ptr).dcache.Has (some p, d) := by
        simp only [dcache_dget, Dcache.has_iff_mem_bare, Dcache.bare_dget]
        exact Dcache.mem_bare_of_mem hd
      have hel := ht3.live q e he3
      have hpos := ht3.pos _ he3
      have hem : e.ptr ∈ h.dcache.ptrs := Dcache.mem_ptrs_of_mem hb
      have hn : ((((h.dget p).dget q).dget d.ptr).dget e.ptr).dcache.ptrs.Nodup :=
        (ht3.dget e.ptr).nodup
      rcases vfsRename_cases (d := d.withCount c) (e := e.get) hn hc hlive.2.2.1 hi he hel.2.2.1
        hel.1 (by simp only [Dentry.get] at hpos ⊢; omega)
        (fun _ => by simp only [Dentry.get] at hpos ⊢; omega) hvfs with
        ⟨rfl, -⟩ | ⟨hempty, hne, hkind, rfl, rfl⟩
      · exact .inl hnoTrace
      obtain ⟨te, hte⟩ := Option.isSome_iff_exists.mp hel.2.2.2
      have hroot : e.ptr ≠ h.root := fun heq => by
        have := ht.sound.pin_le q (e.withCount b) hb
        simp only [Dentry.ptr_withCount, heq, ht.sound.pin_root] at this
        omega
      have hpe : pin e.ptr = 1 :=
        Nat.le_antisymm (ht.sound.pin_le q (e.withCount b) hb) (hpin _ hem)
      have hde : d.ptr ≠ e.ptr := fun heq => by
        have hsame := Forest.eq_of_mem_flat hn hc he heq
        rw [Prod.mk.injEq] at hsame
        exact hne (by rw [← hsame.2]; exact hi)
      have h0 : h.dcache.kids e.ptr = 0 := by
        refine ht.kids_of_simpleEmpty ?_
        simpa only [dcache_dget, Dcache.dget, Dentry.ptr_get,
          Dcache.simpleEmpty_update Dcache.keeps_get fun _ => rfl] using hempty
      have hptrs : ∀ k, k ∈ ((((h.dget p).dget q).dget d.ptr).dget e.ptr).dcache.ptrs ↔
          k ∈ h.dcache.ptrs := by simp
      obtain ⟨rest, hsound, hb1, hb2, hnext, heq⟩ := exchanged_dputs oi ni (h := h)
        (d := d.withCount c) (e := e.get) (p := p) (q := q)
        (g := (((h.dget p).dget q).dget d.ptr).dget e.ptr)
        (hs3.dget (by simpa using hem)) (by simp [Dentry.get, hte, hpe]) hroot (hopen _) hc he hde
        (by simpa only [dcache_dget, Dcache.dget, Dcache.kids_update Dcache.keeps_get,
          Dentry.ptr_get] using h0) hbelow.1
        (by simpa only [dcache_dget, Dcache.dget, Dcache.keys_subdirs_update Dcache.keeps_get,
          Dentry.ptr_withCount] using hbelow.2)
        (fun k hk _ => hpin k ((hptrs k).mp hk)) rfl rfl
      simp only [dcache_dget, Dcache.bare_dget] at hb1
      exact .inr ⟨rfl, p, oi, q, ni, i, d, { (d.withCount c).rehash with dName := e.dName },
        some (e.withCount b), rest,
        { old := hd, inode := hi, oldDir := hp, newDir := hq, isDir := hqdir,
          same := ⟨rfl, rfl, rfl, hlive.2⟩,
          target := fun e' he' => by
            cases he'
            exact ⟨hb, hde.symm, h0, te, hte, fun hc => hne (by rw [← hc]; exact hte),
              hkind te hte⟩,
          before := hb1, after := hb2, sound := hsound, nextPtr := Nat.le_of_eq hnext.symm,
          eq := heq },
        hold, hname₀, hwq, hname, fun e' he' => by cases he'; exact hname,
        fun hnone => (by cases hnone), hbelow⟩
  | miss hmiss =>
      have hqm3 : q ∈ (((h.dget p).dget q).dget d.ptr).dcache.ptrs := by simpa using hqm
      have hnew := ht3.nextPtr_not_mem
      have hnew' : h.nextPtr ∉ h.dcache.ptrs := ht.ready.nextPtr_not_mem
      have hne : ∀ {k}, k ∈ h.dcache.ptrs → k ≠ h.nextPtr := fun hk heq => hnew' (heq ▸ hk)
      have hbelow3 : q ∉ Forest.keys Dentry.ptr
          ((((h.dget p).dget q).dget d.ptr).dcache.subdirs d.ptr) := by
        simpa only [dcache_dget, Dcache.dget, Dcache.keys_subdirs_update Dcache.keeps_get]
          using hbelow.2
      have hs5 := (hs3.plant (d := negDentry h.nextPtr newName) hqm3 hnew rfl rfl
        (by simp [Dcache.bump, negDentry, hopen, (hne hpm).symm, (hne hqm).symm,
          (hne hdm).symm])).unpin (hne ht.sound.root_mem).symm (Function.update_self ..)
      rw [show (negDentry h.nextPtr newName).ptr = h.nextPtr from rfl, Function.update_idem] at hs5
      have hbare := Dcache.bare_plant (d := negDentry h.nextPtr newName) ht3.nodup hqm3
      have hbare3 : (((h.dget p).dget q).dget d.ptr).dcache.bare = h.dcache.bare := by
        simp only [dcache_dget, Dcache.bare_dget]
      rw [hbare3] at hbare
      obtain ⟨c, hc⟩ : (((((h.dget p).dget q).dget d.ptr).dcache.plant q
          (negDentry h.nextPtr newName))).Has (some p, d) :=
        Dcache.has_iff_mem_bare.mpr (hbare.mem_iff.mpr
          (List.mem_cons_of_mem _ (Dcache.mem_bare_of_mem hd)))
      have he := (Dcache.mem_nodes_plant (d := negDentry h.nextPtr newName) ht3.nodup hqm3).mpr
        (.inl rfl)
      have hptrs : ∀ k ∈ ((((h.dget p).dget q).dget d.ptr).dcache.plant q
          (negDentry h.nextPtr newName)).ptrs, k ≠ h.nextPtr → k ∈ h.dcache.ptrs := by
        intro k hk hkn
        rw [← Dcache.map_ptr_bare, (hbare.map _).mem_iff, List.map_cons, List.mem_cons,
          Dcache.map_ptr_bare] at hk
        exact hk.resolve_left hkn
      rcases vfsRename_cases (d := d.withCount c) (e := negDentry h.nextPtr newName) hs5.nodup hc
        hlive.2.2.1 hi he rfl rfl (by simp [negDentry]) (fun h => by simp [negDentry] at h) hvfs
        with ⟨rfl, -⟩ | ⟨-, -, -, rfl, rfl⟩
      · exact .inl hnoTrace
      obtain ⟨rest, hsound, hb1, hb2, hnext, heq⟩ := exchanged_dputs oi ni (h := h)
        (d := d.withCount c) (e := negDentry h.nextPtr newName) (p := p) (q := q)
        (g := (((h.dget p).dget q).dget d.ptr).looked (((h.dget p).dget q).dget d.ptr).dcache q
          newName)
        hs5 (by simp [negDentry]) (hne ht.sound.root_mem).symm (hopen _) hc he (hne hdm)
        (Dcache.kids_plant_self ht3.nodup hqm3 hnew) hbelow.1
        (by
          rw [Dentry.ptr_withCount, Dcache.keys_subdirs_plant hbelow.1.symm (hne hdm) hbelow3]
          exact hbelow3)
        (fun k hk (hkn : k ≠ h.nextPtr) => by
          rw [Function.update_of_ne hkn]
          exact hpin k (hptrs k hk hkn)) rfl rfl
      -- the new name's dentry is the only one more, before the rename
      have hb := (hbare.symm.trans (hb1.trans (List.Perm.swap _ _ _))).cons_inv
      have hgone := mt (fun hk => (hb.map fun x => x.2.ptr).mem_iff.mpr
        ((hb2.map fun x => x.2.ptr).mem_iff.mp hk)) (by rw [Dcache.map_ptr_bare]; exact hnew')
      rw [Dcache.map_ptr_bare] at hgone
      simp only [dcache_dget, Dcache.dget, Option.map_eq_none_iff,
        Dcache.dLookup_update Dcache.keeps_get fun _ => ⟨rfl, rfl⟩] at hmiss
      exact .inr ⟨rfl, p, oi, q, ni, i, d, { (d.withCount c).rehash with dName := newName }, none,
        rest,
        { old := hd, inode := hi, oldDir := hp, newDir := hq, isDir := hqdir,
          same := ⟨rfl, rfl, rfl, hlive.2⟩,
          target := fun _ he' => (by cases he'),
          before := hb, after := hb2,
          sound := hsound.congr (fun _ _ => rfl) fun k hk => Function.update_of_ne
            (ne_of_mem_of_not_mem hk hgone) _ _,
          nextPtr := Nat.le_trans (Nat.le_succ _) (Nat.le_of_eq hnext.symm),
          eq := heq },
        hold, hname₀, hwq, rfl, fun _ he' => (by cases he'), fun _ => hmiss, hbelow⟩

end Call

section Keep

/-- A rename changes no inode's kind, but for the directory it replaced. -/
theorem sameKind_movedInodes {target : Option Ptr} {dir : Bool} (j : Ptr)
    (hj : dir = true → target ≠ some j) :
    ((h.movedInodes oi ni target dir).inodes j).SameKind (h.inodes j) := by
  have hsame : ∀ {g : Host} {i : Ptr} {f : Inode → Inode}, (∀ n, (f n).SameKind n) →
      (g.inodes j).SameKind (h.inodes j) → ((g.setInode i f).inodes j).SameKind (h.inodes j) :=
    fun hf hg => (sameKind_setInode j fun _ => hf _).trans hg
  have hinc : ∀ n : Inode, n.incNlink.SameKind n := fun _ => ⟨rfl, rfl, rfl⟩
  have hdrop : ∀ n : Inode, n.dropNlink.SameKind n := fun _ => ⟨rfl, rfl, rfl⟩
  have hrefl : (h.inodes j).SameKind (h.inodes j) := ⟨rfl, rfl, rfl⟩
  match target, dir with
  | none, false => exact hrefl
  | none, true => exact hsame hinc (hsame hdrop hrefl)
  | some i, false => exact hsame hdrop hrefl
  | some i, true =>
      exact (sameKind_setInode j fun hji => absurd (by rw [hji]) (hj rfl)).trans
        (hsame hdrop (hsame hdrop hrefl))

variable {i : Ptr} {d' : Dentry} {gone : Option Dentry} {rest : List (Option Ptr × Dentry)}
  (hr : Renamed pin h h' p oi q ni i d d' gone rest)
include hr

namespace Renamed

/-- Where the dentries of the new tree come from. -/
theorem origin (hn : h.dcache.ptrs.Nodup) {y : Option Ptr × Dentry}
    (hy : y ∈ h'.dcache.nodes) :
    (∀ e, gone = some e → y.2.ptr ≠ e.ptr) ∧
    ((∃ c, y = (some q, d'.withCount c)) ∨ h.dcache.Has y) := by
  have hmem := (hr.after.mem_iff (a := Dcache.strip y)).mp (Dcache.mem_bare_of_mem hy)
  have hnodup : ((Dcache.strip (some p, d) ::
      ((gone.map fun e => Dcache.strip (some q, e)).toList ++ rest)).map
        fun x => x.2.ptr).Nodup := by
    rw [← (hr.before.map _).nodup_iff, Dcache.map_ptr_bare]
    exact hn
  rcases List.mem_cons.mp hmem with hyd | hyr
  · refine ⟨fun e he hye => ?_, .inl ⟨y.2.dCount, ?_⟩⟩
    · subst he
      have hptr : y.2.ptr = d.ptr := (congrArg (fun z => z.2.ptr) hyd).trans hr.same.1
      exact (hr.target e rfl).2.1 (hye.symm.trans hptr)
    · have h1 : y.1 = some q := congrArg (fun z => z.1) hyd
      have h2 : y.2.withCount 0 = d'.withCount 0 := congrArg (fun z => z.2) hyd
      have h3 := congrArg (fun z : Dentry => z.withCount y.2.dCount) h2
      exact Prod.ext h1 (by simpa using h3)
  · refine ⟨fun e he hye => ?_, .inr (Dcache.has_iff_mem_bare.mpr
      (hr.before.mem_iff.mpr (List.mem_cons_of_mem _ (List.mem_append_right _ hyr))))⟩
    subst he
    simp only [Option.map_some, Option.toList_some, List.singleton_append, List.map_cons,
      List.nodup_cons] at hnodup
    exact hnodup.2.1 (by
      rw [show (Dcache.strip (some q, e)).2.ptr = (Dcache.strip y).2.ptr from hye.symm]
      exact List.mem_map_of_mem hyr)

/-- Every dentry of the new tree is one of the old tree. -/
theorem exists_origin (hn : h.dcache.ptrs.Nodup) {y : Option Ptr × Dentry}
    (hy : y ∈ h'.dcache.nodes) :
    ∃ x ∈ h.dcache.nodes, x.2.ptr = y.2.ptr ∧ x.2.dInode = y.2.dInode := by
  rcases (hr.origin hn hy).2 with ⟨c, rfl⟩ | ⟨c, hc⟩
  · exact ⟨_, hr.old, hr.same.1.symm, hr.same.2.1.symm⟩
  · exact ⟨_, hc, rfl, rfl⟩

theorem files_eq : h'.files = h.files ∧ h'.root = h.root ∧ h'.outbox = h.outbox ∧
    h'.table = h.table ∧ h'.lastIno = h.lastIno := by
  rw [hr.eq]
  cases gone.bind Dentry.dInode <;> cases (h.inodes i).isDir <;> exact ⟨rfl, rfl, rfl, rfl, rfl⟩

theorem inodes_eq : h'.inodes =
    (h.movedInodes oi ni (gone.bind Dentry.dInode) (h.inodes i).isDir).inodes := by
  rw [hr.eq]

/-- The inodes that the new tree holds are of the kind they were. -/
theorem sameKind (ht : h.Tidy pin) {y : Option Ptr × Dentry} (hy : y ∈ h'.dcache.nodes) {j : Ptr}
    (hj : y.2.dInode = some j) : (h'.inodes j).SameKind (h.inodes j) := by
  rw [hr.inodes_eq]
  refine sameKind_movedInodes j fun hdir hgone => ?_
  -- the directory that was replaced had no other name
  obtain ⟨e, he, hte⟩ := Option.bind_eq_some_iff.mp hgone
  obtain ⟨hem, -, -, te, hte', -, hkind⟩ := hr.target e he
  obtain ⟨x, hx, hptr, hino⟩ := hr.exists_origin ht.sound.nodup hy
  have hjt : te = j := Option.some.inj (hte'.symm.trans hte)
  have heq := ht.dir_unique _ hem x hx j hte (hino.trans hj) (by rw [← hjt, hkind]; exact hdir)
  exact (hr.origin ht.sound.nodup hy).1 e he (by rw [← hptr, ← heq])

end Renamed

/-- A rename keeps the host in order. -/
theorem Tidy.renamed (ht : h.Tidy pin) : h'.Tidy pin := by
  obtain ⟨hfiles, hroot, -⟩ := hr.files_eq
  have hn := ht.sound.nodup
  have hopens : h'.opens = h.opens := by unfold opens; rw [hfiles]
  refine ht.relocated ?_ (fun y hy => hr.exists_origin hn hy) ?_ hroot hr.nextPtr ?_
    fun y hy j hj => hr.sameKind ht hy hj
  · rw [hroot, hopens]
    exact hr.sound
  · intro k c hc
    rcases (hr.origin hn hc).2 with ⟨b, heq⟩ | ⟨b, hb⟩
    · cases heq
      exact ⟨hr.same.2.2, ni, hr.newDir, hr.isDir⟩
    · exact ⟨ht.ready.live k (c.withCount b) hb, ht.dirs k _ hb⟩
  · rw [hfiles]
    exact fun k hk => Nat.lt_of_lt_of_le (ht.file_lt k hk) hr.nextPtr

end Keep

end Host

end Wjfs
