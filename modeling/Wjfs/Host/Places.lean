import Wjfs.Dcache.Fade
import Wjfs.Host.Rename

/-!
# Wjfs.Host.Places

Where the dentries of a host are, whatever was done to it.

Removing a link that is not the host's own, or a frame with a wrong flag,
leaves a host that is not in order: dentries that are not hashed, and
references that nobody accounts for.  `Sane` is what is still true then, and
`Grown` says of a call which dentries it put where they were not before.  Each
part of a call is described by itself; what a call can do follows by putting
the parts together.
-/

namespace Wjfs

namespace Host

variable {h h' g r : Host} {env : Env} {path : List Bytes} {name : Bytes}
  {p q k i j dir di : Ptr} {d e : Dentry} {n : CInt} {err : Option Errno} {mode : Mode}
  {N M : Ptr → Ptr → CInt → Prop}

/-- What stays true of a host: its dentries are held, and their parents are
directories. -/
structure Sane (h : Host) : Prop where
  held : h.dcache.Held
  unmounted : ∀ x ∈ h.dcache.nodes, x.2.dMounted = false
  ptr_lt : ∀ x ∈ h.dcache.nodes, x.2.ptr < h.nextPtr
  inode_lt : ∀ x ∈ h.dcache.nodes, ∀ i, x.2.dInode = some i → i < h.nextPtr
  dirs : ∀ p d, (some p, d) ∈ h.dcache.nodes →
    ∃ i, h.dInode? p = some i ∧ (h.inodes i).isDir = true

/-- The dentry at `k` lies in directory `p`, and its inode has the number `n`.
The root lies in itself. -/
def Lies (h : Host) (k p : Ptr) (n : CInt) : Prop :=
  ∃ x ∈ h.dcache.nodes, ∃ i, x.2.ptr = k ∧ x.1.getD k = p ∧ x.2.dInode = some i ∧ h.number i = n

/-- The inode is still the same file: it has the same number, and is a
directory or not as it was. -/
def SameFile (n m : Inode) : Prop := n.iIno = m.iIno ∧ n.isDir = m.isDir

/-- `h'` is what is left of `h`. -/
structure Fades (h h' : Host) : Prop where
  tree : Dcache.Fades (fun i => (h.inodes i).isDir) h.dcache h'.dcache
  file : ∀ i, SameFile (h'.inodes i) (h.inodes i)
  next : h'.nextPtr = h.nextPtr
  table : h'.table = h.table

/-- `h'` came from `h`, and what lies where it did not lie before is in `N`. -/
structure Grown (N : Ptr → Ptr → CInt → Prop) (h h' : Host) : Prop where
  sane : h'.Sane
  places : ∀ k p n, h'.Lies k p n → h.Lies k p n ∨ N k p n
  file : ∀ i < h.nextPtr, SameFile (h'.inodes i) (h.inodes i)
  next : h.nextPtr ≤ h'.nextPtr
  table : h'.table = h.table

/-- Nothing new. -/
def Nowhere : Ptr → Ptr → CInt → Prop := fun _ _ _ => False

/-! ## what is left -/

namespace Fades

theorem refl (hs : h.Sane) : Fades h h := ⟨.refl hs.held, fun _ => ⟨rfl, rfl⟩, rfl, rfl⟩

theorem trans (hf : Fades h g) (hg : Fades g r) : Fades h r := by
  have hdir : (fun i => (g.inodes i).isDir) = fun i => (h.inodes i).isDir :=
    funext fun i => (hf.file i).2
  refine ⟨hf.tree.trans (hdir ▸ hg.tree), fun i => ?_, hg.next.trans hf.next,
    hg.table.trans hf.table⟩
  exact ⟨(hg.file i).1.trans (hf.file i).1, (hg.file i).2.trans (hf.file i).2⟩

/-- A rewriting of the tree alone. -/
theorem mapDcache {F : Dcache → Dcache}
    (hF : Dcache.Fades (fun i => (h.inodes i).isDir) h.dcache (F h.dcache)) :
    Fades h (h.mapDcache F) := ⟨hF, fun _ => ⟨rfl, rfl⟩, rfl, rfl⟩

theorem dget (hs : h.Sane) (k : Ptr) : Fades h (h.dget k) := mapDcache (.dget hs.held k)

theorem dput (hs : h.Sane) (k : Ptr) : Fades h (h.dput k) := mapDcache (.dput hs.held k)

theorem setInode (hs : h.Sane) (i : Ptr) {f : Inode → Inode} (hf : ∀ n, SameFile (f n) n) :
    Fades h (h.setInode i f) := by
  refine ⟨.refl hs.held, fun j => ?_, rfl, rfl⟩
  unfold Host.setInode
  by_cases hj : j = i
  · subst hj
    simp only [if_true]
    exact hf _
  · simp only [if_neg hj]
    exact ⟨rfl, rfl⟩

theorem send (hs : h.Sane) (b : Bytes) : Fades h (h.send env b) := by
  rw [send_eq]
  exact ⟨.refl hs.held, fun _ => ⟨rfl, rfl⟩, rfl, rfl⟩

/-- What is left of a sane host is sane. -/
theorem sane (hs : h.Sane) (hf : Fades h h') : h'.Sane := by
  refine ⟨hf.tree.held, fun y hy => ?_, fun y hy => ?_, fun y hy i hi => ?_, fun p d hd => ?_⟩
  · obtain ⟨x, hx, -, hleft⟩ := hf.tree.origin y hy
    exact hleft.mounted.trans (hs.unmounted x hx)
  · obtain ⟨x, hx, -, hleft⟩ := hf.tree.origin y hy
    rw [hf.next, hleft.ptr]
    exact hs.ptr_lt x hx
  · obtain ⟨x, hx, -, -, -, -, heq | ⟨hnone, -⟩⟩ := hf.tree.origin y hy
    · rw [hf.next]
      exact hs.inode_lt x hx i (heq ▸ hi)
    · rw [hnone] at hi
      cases hi
  · -- the parent is a directory, so it kept its inode
    obtain ⟨y, hy, hyp⟩ := Forest.exists_mem_flat (Dcache.parent_mem_ptrs hd) none
    obtain ⟨x, hx, -, hleft⟩ := hf.tree.origin y hy
    obtain ⟨⟨_, c⟩, hc, rfl, -⟩ := hf.tree.origin _ hd
    obtain ⟨i, hi, hdir⟩ := hs.dirs p c hc
    have hxp : x.2.ptr = p := hleft.ptr.symm.trans hyp
    have hxi : x.2.dInode = some i := by rw [← dInode?_of_mem hs.held.nodup hx, hxp, hi]
    refine ⟨i, ?_, (hf.file i).2.trans hdir⟩
    rw [← hyp, dInode?_of_mem hf.tree.held.nodup hy]
    rcases hleft.inode with heq | ⟨-, hfile⟩
    · exact heq.trans hxi
    · exact absurd hdir (by simp [show (h.inodes i).isDir = false from hfile i hxi])

theorem lies (hf : Fades h h') (hl : h'.Lies k p n) : h.Lies k p n := by
  obtain ⟨y, hy, i, hyk, hyp, hyi, hn⟩ := hl
  obtain ⟨x, hx, hxy, hptr, -, -, heq | ⟨hnone, -⟩⟩ := hf.tree.origin y hy
  · exact ⟨x, hx, i, hptr.symm.trans hyk, hxy ▸ hyp, heq ▸ hyi, (hf.file i).1.symm.trans hn⟩
  · rw [hnone] at hyi
    cases hyi

end Fades

theorem Sane.dget (hs : h.Sane) (k : Ptr) : (h.dget k).Sane := (Fades.dget hs k).sane hs

/-! ## what is added -/

namespace Grown

theorem refl (hs : h.Sane) : Grown N h h :=
  ⟨hs, fun _ _ _ => .inl, fun _ _ => ⟨rfl, rfl⟩, Nat.le_refl _, rfl⟩

theorem trans (hg : Grown N h g) (hr : Grown M g r) :
    Grown (fun k p n => N k p n ∨ M k p n) h r := by
  refine ⟨hr.sane, fun k p n hl => ?_, fun i hi => ?_, Nat.le_trans hg.next hr.next,
    hr.table.trans hg.table⟩
  · rcases hr.places k p n hl with hl | hM
    · exact (hg.places k p n hl).imp_right .inl
    · exact .inr (.inr hM)
  · have h1 := hg.file i hi
    have h2 := hr.file i (Nat.lt_of_lt_of_le hi hg.next)
    exact ⟨h2.1.trans h1.1, h2.2.trans h1.2⟩

theorem mono (hg : Grown N h g) (hNM : ∀ k p n, N k p n → M k p n) : Grown M h g :=
  ⟨hg.sane, fun k p n hl => (hg.places k p n hl).imp_right (hNM k p n), hg.file, hg.next, hg.table⟩

/-- What lay there before is not new. -/
theorem absorb (hg : Grown N h g) (hN : ∀ k p n, N k p n → h.Lies k p n ∨ M k p n) :
    Grown M h g :=
  ⟨hg.sane, fun k p n hl => (hg.places k p n hl).elim .inl (hN k p n), hg.file, hg.next, hg.table⟩

/-- Parts that add nothing before and after. -/
theorem after (hg : Grown Nowhere h g) (hr : Grown N g r) : Grown N h r :=
  (hg.trans hr).mono fun _ _ _ hN => hN.resolve_left id

theorem fades (hg : Grown N h g) (hf : Fades g r) : Grown N h r := by
  refine ⟨hf.sane hg.sane, fun k p n hl => hg.places k p n (hf.lies hl), fun i hi => ?_,
    by rw [hf.next]; exact hg.next, hf.table.trans hg.table⟩
  exact ⟨(hf.file i).1.trans (hg.file i hi).1, (hf.file i).2.trans (hg.file i hi).2⟩

theorem dput (hg : Grown N h g) (k : Ptr) : Grown N h (g.dput k) := hg.fades (.dput hg.sane k)

end Grown

theorem Sane.grown_of_fades (hs : h.Sane) (hf : Fades h r) : Grown N h r := (Grown.refl hs).fades hf

/-! ## lookups -/

theorem Sane.nextPtr_not_mem (hs : h.Sane) : h.nextPtr ∉ h.dcache.ptrs := fun hm => by
  obtain ⟨x, hx, hxk⟩ := Forest.exists_mem_flat hm none
  exact Nat.ne_of_lt (hs.ptr_lt x hx) hxk

/-- The parent of a dentry with an inode has an inode. -/
theorem Lies.dInode? (hs : h.Sane) (hl : h.Lies k p n) : ∃ i, h.dInode? p = some i := by
  obtain ⟨⟨o, d⟩, hx, i, rfl, rfl, hi, -⟩ := hl
  cases o with
  | none => exact ⟨i, (dInode?_of_mem hs.held.nodup hx).trans hi⟩
  | some p =>
      obtain ⟨j, hj, -⟩ := hs.dirs p d hx
      exact ⟨j, hj⟩

theorem lies_of_dInode? (hi : h.dInode? k = some i) :
    ∃ p, h.Lies k p (h.number i) := by
  obtain ⟨x, hx, hxi⟩ := Ready.exists_dentry hi
  exact ⟨_, x, Dcache.mem_nodes_of_node? hx, i, Dcache.ptr_of_node? hx, rfl, hxi, rfl⟩

/-- A negative dentry more. -/
theorem Sane.plant (hs : h.Sane) (hdi : h.dInode? dir = some di)
    (hdir : (h.inodes di).isDir = true) (hptr : d.ptr = h.nextPtr) (hneg : d.dInode = none)
    (hc : d.dCount = 1) (hdies : d.dOp = true ∨ d.dUnhashed = true)
    (hfree : d.dUnhashed = false → h.dcache.dLookup dir d.dName = none) (hm : d.dMounted = false)
    (hg : g = { h with dcache := h.dcache.plant dir d, nextPtr := h.nextPtr + 1 }) :
    Grown N h g := by
  subst hg
  obtain ⟨z, hz, hzi⟩ := Ready.exists_dentry hdi
  have hp := Dcache.mem_ptrs_of_node? hz
  have hnew : d.ptr ∉ h.dcache.ptrs := hptr ▸ hs.nextPtr_not_mem
  have hn := hs.held.nodup
  have hold : ∀ {x}, x ∈ (h.dcache.plant dir d).nodes → x = (some dir, d) ∨
      ∃ y ∈ h.dcache.nodes, y.1 = x.1 ∧ Dcache.Left (fun i => (h.inodes i).isDir) y.2 x.2 :=
    fun hx => ((Dcache.mem_nodes_plant hn hp).mp hx).imp_right
      ((Dcache.Fades.dget hs.held dir).origin _)
  have hino : ∀ {x i}, x ∈ (h.dcache.plant dir d).nodes → x.2.dInode = some i →
      ∃ y ∈ h.dcache.nodes, y.1 = x.1 ∧ y.2.ptr = x.2.ptr ∧ y.2.dInode = some i := fun hx hi => by
    rcases hold hx with rfl | ⟨y, hy, hy1, hleft, -, -, heq | ⟨hnone, -⟩⟩
    · rw [hneg] at hi
      cases hi
    · exact ⟨y, hy, hy1, hleft.symm, heq ▸ hi⟩
    · rw [hnone] at hi
      cases hi
  have hkeep : ∀ {k j}, h.dInode? k = some j →
      ({ h with dcache := h.dcache.plant dir d, nextPtr := h.nextPtr + 1 } : Host).dInode? k =
        some j := fun {k j} hk => by
    obtain ⟨y, hy, hyj⟩ := Ready.exists_dentry hk
    have hne : k ≠ d.ptr := fun heq => hnew (heq ▸ Dcache.mem_ptrs_of_node? hy)
    have hnode :=
      (Dcache.node?_plant_ne hn hp hnew hne).trans (Dcache.node?_update Dcache.keeps_get)
    have hy' : h.dcache.node? k = some y := hy
    rw [hy'] at hnode
    rw [Host.dInode?, dentryOf?, hnode]
    simp only [Option.map_some, Option.bind_some]
    split
    · exact hyj
    · exact hyj
  refine ⟨⟨hs.held.plant hp hnew (by omega) hdies hfree, fun x hx => ?_, fun x hx => ?_,
    fun x hx i hi => ?_, fun p c hx => ?_⟩, fun k p n hl => ?_, fun _ _ => ⟨rfl, rfl⟩,
    Nat.le_succ _, rfl⟩
  · rcases hold hx with rfl | ⟨y, hy, -, hleft⟩
    · exact hm
    · exact hleft.mounted.trans (hs.unmounted y hy)
  · rcases hold hx with rfl | ⟨y, hy, -, hleft⟩
    · exact hptr ▸ Nat.lt_succ_self _
    · rw [hleft.ptr]
      exact Nat.lt_succ_of_lt (hs.ptr_lt y hy)
  · obtain ⟨y, hy, -, -, hyi⟩ := hino hx hi
    exact Nat.lt_succ_of_lt (hs.inode_lt y hy i hyi)
  · rcases hold hx with heq | ⟨⟨_, y⟩, hy, rfl, -⟩
    · cases heq
      exact ⟨di, hkeep hdi, hdir⟩
    · obtain ⟨i, hi, hidir⟩ := hs.dirs p y hy
      exact ⟨i, hkeep hi, hidir⟩
  · obtain ⟨x, hx, i, hxk, hxp, hxi, hnum⟩ := hl
    obtain ⟨y, hy, hy1, hyptr, hyi⟩ := hino hx hxi
    exact .inl ⟨y, hy, i, hyptr.trans hxk, hy1 ▸ hxp, hyi, hnum⟩

/-- A lookup adds nothing. -/
theorem Looked.grown (hs : h.Sane) (hdi : h.dInode? dir = some di)
    (hdir : (h.inodes di).isDir = true) (hl : h.Looked dir name g k) : Grown Nowhere h g := by
  cases hl with
  | hit => exact hs.grown_of_fades (.dget hs _)
  | miss hl =>
      exact hs.plant (d := negDentry h.nextPtr name) hdi hdir rfl rfl rfl (.inl rfl) (fun _ => hl)
        rfl rfl

theorem Looked.lastIno (hl : h.Looked dir name g k) : g.lastIno = h.lastIno := by
  cases hl <;> rfl

/-- The dentry that a lookup gives. -/
theorem Looked.node (hs : h.Sane) (hdi : h.dInode? dir = some di) (hl : h.Looked dir name g k) :
    ∃ d, (some dir, d) ∈ g.dcache.nodes ∧ d.ptr = k ∧ (d.dUnhashed = false ∧ d.dName = name) ∧
      (d.dInode.isSome = true → 2 ≤ d.dCount) ∧ h.dInode? k = d.dInode := by
  cases hl with
  | @hit d hl hname =>
      have hd := dentryOf?_of_dLookup hs.held.nodup hl
      have hpos := hs.held.pos _ (Dcache.mem_nodes_of_node? hd)
      refine ⟨d.get, Dcache.mem_nodes_of_node? (Dcache.node?_update_self Dcache.keeps_get hd), rfl,
        ⟨(Dcache.dLookup_some hl).2.1, hname⟩, fun _ => ?_, ?_⟩
      · simp only [Dentry.get] at hpos ⊢
        omega
      · rw [Host.dInode?, hd]
        rfl
  | miss =>
      obtain ⟨z, hz, -⟩ := Ready.exists_dentry hdi
      refine ⟨negDentry h.nextPtr name, Dcache.mem_nodes_of_node?
        (dentryOf?_looked_new hs.held.nodup hz hs.nextPtr_not_mem), rfl, ⟨rfl, rfl⟩,
        fun hsome => (by cases hsome), ?_⟩
      rw [Host.dInode?, dentryOf?, Dcache.node?_eq_none_iff.mpr hs.nextPtr_not_mem]
      rfl

/-- A lookup finds what has the name. -/
theorem Looked.eq_of_hashed (hs : h.Sane) (hl : h.Looked dir name g k)
    (hd : (some dir, d) ∈ h.dcache.nodes) (hu : d.dUnhashed = false) (hname : d.dName = name) :
    k = d.ptr := by
  cases hl with
  | @hit e hl hname' =>
      have he := Dcache.mem_nodes_of_node? (dentryOf?_of_dLookup hs.held.nodup hl)
      exact hs.held.distinct dir e d he hd (Dcache.dLookup_some hl).2.1 hu (hname'.trans hname.symm)
  | miss hl =>
      have hnone := List.find?_eq_none.mp hl d ((Dcache.mem_subdirs_iff hs.held.nodup).mpr hd)
      simp [hu, hname] at hnone

/-- A lookup leaves the dentries that have an inode. -/
theorem Looked.covers (hs : h.Sane) (hdi : h.dInode? dir = some di) (hl : h.Looked dir name g k) :
    h.dcache.Covers g.dcache := by
  cases hl with
  | hit => exact Dcache.covers_dget _ _
  | miss =>
      obtain ⟨z, hz, -⟩ := Ready.exists_dentry hdi
      exact Dcache.covers_plant hs.held.nodup (Dcache.mem_ptrs_of_node? hz) _

/-- A lookup adds nothing; it fails, or gives a dentry. -/
theorem lookupNd_cases (hs : h.Sane) {x : Except Errno Ptr}
    (hok : h.lookupNd env dir name = .ok (g, x)) :
    Grown Nowhere h g ∧ ((∃ e, x = .error e) ∨ ∃ k, x = .ok k ∧ h.Looked dir name g k) := by
  unfold lookupNd lookupHash at hok
  cases hdi : h.dInode? dir with
  | none =>
      simp only [inodeOf?, hdi, Option.map_none] at hok
      cases hok
  | some di =>
  simp only [inodeOf?, hdi, Option.map_some] at hok
  split at hok
  swap
  · cases hok
    exact ⟨.refl hs, .inl ⟨_, rfl⟩⟩
  cases hl : h.dcache.dLookup dir name with
  | some d =>
      rw [hl] at hok
      cases hok
      have hname := (Dcache.dLookup_some hl).2.2
      exact ⟨hs.grown_of_fades (.dget hs _), .inr ⟨_, rfl, .hit (by rw [hname]; exact hl) hname⟩⟩
  | none =>
      simp only [hl] at hok
      split at hok
      · cases hok
        exact ⟨.refl hs, .inl ⟨_, rfl⟩⟩
      split at hok
      swap
      · cases hok
      next hdir =>
      unfold wjfsLookup at hok
      split at hok
      · cases hok
        refine ⟨Grown.dput ?_ _, .inl ⟨_, rfl⟩⟩
        exact hs.plant (d := Dcache.newDentry h.nextPtr name) hdi hdir rfl rfl rfl (.inr rfl)
          (fun hu => (by cases hu)) rfl rfl
      · cases hok
        have hadd : ({ h with
            dcache := h.dcache.dAlloc dir name h.nextPtr
            nextPtr := h.nextPtr + 1 } : Host).mapDcache (·.update h.nextPtr Dentry.added) =
            h.looked h.dcache dir name := by
          unfold Host.mapDcache looked
          simp only [Dcache.dAlloc_eq_plant]
          rw [Dcache.update_plant (k := h.nextPtr) (d := Dcache.newDentry h.nextPtr name) rfl
            Dcache.keeps_added hs.nextPtr_not_mem]
          rfl
        rw [hadd]
        exact ⟨(Looked.miss hl).grown hs hdi hdir, .inr ⟨_, rfl, .miss hl⟩⟩

/-! ## the parts of a call -/

/-- A call behind a walk fails with the walk, or is the call on what the walk
leads to. -/
theorem withParent_ok {call : Host → Ptr → Outcome}
    (hok : h.withParent env path call = .ok (h', err)) :
    err ≠ none ∧ h' = h ∨ ∃ dir r, h.walk env h.root path = .ok dir ∧
      call (h.dget dir) dir = .ok (r, err) ∧ h' = r.dput dir := by
  unfold withParent at hok
  cases hw : h.walk env h.root path with
  | error e =>
      rw [hw] at hok
      cases hok
      exact .inl ⟨Option.some_ne_none _, rfl⟩
  | ok dir =>
      rw [hw] at hok
      obtain ⟨⟨r, e⟩, hr, hok⟩ := bind_eq_ok hok
      cases hok
      exact .inr ⟨dir, r, rfl, hr, rfl⟩

/-- A call behind a lookup fails with the lookup, or is the call on what the
lookup gives. -/
theorem withDentry_ok (hs : h.Sane) {call : Host → Ptr → Outcome}
    (hok : h.withDentry env dir name call = .ok (h', err)) :
    err ≠ none ∧ Grown Nowhere h h' ∨ ∃ g k r, h.Looked dir name g k ∧ call g k = .ok (r, err) ∧
      h' = r.dput k := by
  obtain ⟨⟨g, x⟩, hl, hok⟩ := bind_eq_ok hok
  obtain ⟨hg, ⟨e, rfl⟩ | ⟨k, rfl, hlooked⟩⟩ := lookupNd_cases hs hl
  · cases hok
    exact .inl ⟨Option.some_ne_none _, hg⟩
  · obtain ⟨⟨r, e⟩, hr, hok⟩ := bind_eq_ok hok
    cases hok
    exact .inr ⟨g, k, r, hlooked, hr, rfl⟩

/-- A call on a name fails before it gets to the name, or is the call on the
dentry that a lookup gives. -/
theorem withName_ok (hs : h.Sane) {notNorm : Errno} {call : Host → Ptr → Ptr → Outcome}
    (hok : h.withName env path name notNorm call = .ok (h', err)) :
    err ≠ none ∧ Grown Nowhere h h' ∨ ∃ dir di g k r, h.walk env h.root path = .ok dir ∧
      h.dInode? dir = some di ∧ (h.inodes di).isDir = true ∧ (h.dget dir).Looked dir name g k ∧
      call g di k = .ok (r, err) ∧ h' = (r.dput k).dput dir := by
  obtain ⟨herr, rfl⟩ | ⟨dir, r₁, hw, hr₁, rfl⟩ := withParent_ok hok
  · exact .inl ⟨herr, .refl hs⟩
  have hget : Grown Nowhere h (h.dget dir) := hs.grown_of_fades (.dget hs dir)
  split at hr₁
  swap
  · cases hr₁
    exact .inl ⟨Option.some_ne_none _, hget.dput dir⟩
  obtain ⟨herr, hg⟩ | ⟨g, k, r₂, hl, hr₂, rfl⟩ := withDentry_ok hget.sane hr₁
  · exact .inl ⟨herr, (hget.after hg).dput dir⟩
  obtain ⟨di, hdi, hdir⟩ := isDir_of_walk hw
  have hdi₁ : (h.dget dir).dInode? dir = some di := by simpa using hdi
  rw [withInode_of_some
    (hl.dInode? hget.sane.held.nodup hget.sane.nextPtr_not_mem hdi₁ hdi₁)] at hr₂
  exact .inr ⟨dir, di, g, k, r₂, hw, hdi, hdir, hl, hr₂, rfl⟩

/-- As above, for the calls that make a name: the dentry is negative. -/
theorem withNewName_ok (hs : h.Sane) {call : Host → Ptr → Ptr → Outcome}
    (hok : h.withNewName env path name call = .ok (h', err)) :
    err ≠ none ∧ Grown Nowhere h h' ∨ ∃ dir di g k r, h.walk env h.root path = .ok dir ∧
      h.dInode? dir = some di ∧ (h.inodes di).isDir = true ∧ (h.dget dir).Looked dir name g k ∧
      g.dInode? k = none ∧ call g di k = .ok (r, err) ∧ h' = (r.dput k).dput dir := by
  obtain ⟨herr, hg⟩ | ⟨dir, di, g, k, r, hw, hdi, hdir, hl, hr, rfl⟩ := withName_ok hs hok
  · exact .inl ⟨herr, hg⟩
  split at hr
  · cases hr
    have hget : Grown Nowhere h (h.dget dir) := hs.grown_of_fades (.dget hs dir)
    have hg := hget.after (hl.grown hget.sane (by simpa using hdi) hdir)
    exact .inl ⟨Option.some_ne_none _, (hg.dput k).dput dir⟩
  · next hneg =>
    exact .inr ⟨dir, di, g, k, r, hw, hdi, hdir, hl, by simpa using hneg, hr, rfl⟩

/-- A call on a name adds what the call on the dentry adds. -/
theorem withName_grown (hs : h.Sane) {notNorm : Errno} {call : Host → Ptr → Ptr → Outcome}
    (hok : h.withName env path name notNorm call = .ok (h', err))
    (hcall : ∀ dir di g k r e, h.walk env h.root path = .ok dir →
      (h.dget dir).Looked dir name g k → Grown Nowhere h g → call g di k = .ok (r, e) →
      Grown N h r) : Grown N h h' := by
  obtain ⟨-, hg⟩ | ⟨dir, di, g, k, r, hw, hdi, hdir, hl, hr, rfl⟩ := withName_ok hs hok
  · exact hg.mono fun _ _ _ => False.elim
  have hget : Grown Nowhere h (h.dget dir) := hs.grown_of_fades (.dget hs dir)
  have hg := hget.after (hl.grown hget.sane (by simpa using hdi) hdir)
  exact ((hcall dir di g k r _ hw hl hg hr).dput k).dput dir

theorem withNewName_grown (hs : h.Sane) {call : Host → Ptr → Ptr → Outcome}
    (hok : h.withNewName env path name call = .ok (h', err))
    (hcall : ∀ dir di g k r e, h.walk env h.root path = .ok dir →
      (h.dget dir).Looked dir name g k → Grown Nowhere h g → call g di k = .ok (r, e) →
      Grown N h r) : Grown N h h' := by
  refine withName_grown hs hok fun dir di g k r e hw hl hg hr => ?_
  split at hr
  · cases hr
    exact hg.mono fun _ _ _ => False.elim
  · exact hcall dir di g k r e hw hl hg hr

end Host

end Wjfs
