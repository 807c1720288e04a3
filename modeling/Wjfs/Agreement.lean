import Wjfs.Host.Paths
import Wjfs.Run
import Wjfs.Server
import Wjfs.Table.Laws

/-!
# Wjfs.Agreement

Two hosts that show the same paths, and `rename` and `link` on one of them.

Neither `wjfs_rename` nor `wjfs_link` sends a frame, so the other host never
hears of it.
-/

namespace Wjfs

namespace Host

variable {h h' g r : Host} {env : Env} {oldPath newPath path : List Bytes}
  {oldName newName name : Bytes} {p q o k dir di oi ni i : Ptr} {d e : Dentry}

/-! ## what a link shows -/

section Link

variable (hs : h.Sane) (hL : h.Linking env oldPath oldName path name o dir di i d g k)
include hs hL

/-- The new name was free. -/
theorem Linking.not_atPath : ∀ k', ¬ h.AtPath (path ++ [name]) k' := by
  intro k' ha
  obtain ⟨p, e, hp, he, hpos, hname, rfl⟩ := ha.snoc_inv
  obtain rfl := hp.unique hs (atPath_of_walk_root hs hL.new)
  obtain ⟨hsome, hu⟩ := positive_iff.mp hpos
  have hs₃ := ((hs.dget o).dget d.ptr).dget p
  obtain ⟨c, hc⟩ : (((h.dget o).dget d.ptr).dget p).dcache.Has (some p, e) := by
    simp only [dcache_dget, Dcache.has_iff_mem_bare, Dcache.bare_dget]
    exact Dcache.mem_bare_of_mem he
  -- the lookup would have found it
  have hk : k = e.ptr := hL.looked.eq_of_hashed (d := e.withCount c) hs₃ hc hu hname
  obtain ⟨j, hj⟩ := Option.isSome_iff_exists.mp hsome
  have hej : (((h.dget o).dget d.ptr).dget p).dInode? e.ptr = some j :=
    (dInode?_of_mem (x := (some p, e.withCount c)) hs₃.held.nodup hc).trans hj
  have hgj := hL.looked.dInode? hs₃.held.nodup hs₃.nextPtr_not_mem (by simpa using hL.newDir) hej
  rw [← hk, hL.neg] at hgj
  cases hgj

/-- The host with the inode bound to the new name's dentry. -/
def sharing (g : Host) (k i : Ptr) : Host :=
  (g.setInode i Inode.incNlink).mapDcache (·.update k (Dentry.instantiate i))

/-- What `wjfs_link` does, up to the reference that it takes. -/
theorem Linking.dput_eq (hr : g.wjfsLink d.ptr k = .ok (r, none)) : r.dput k = g.sharing k i := by
  have hs₁ := hs.dget o
  have hs₃ := (hs₁.dget d.ptr).dget dir
  have hik : (((h.dget o).dget d.ptr).dget dir).dInode? d.ptr = some i := by
    rw [dInode?_dget, dInode?_dget, Host.dInode?, dentryOf?_of_dLookup hs₁.held.nodup hL.found]
    exact hL.inode
  have hdi : (((h.dget o).dget d.ptr).dget dir).dInode? dir = some di := by simpa using hL.newDir
  obtain ⟨e, he, rfl, -⟩ := hL.looked.node hs₃ hdi
  have hsg := (hL.grown hs).sane
  unfold wjfsLink at hr
  rw [hL.looked.dInode? hs₃.held.nodup hs₃.nextPtr_not_mem hdi hik] at hr
  obtain ⟨g', hinst, hr⟩ := bind_eq_ok hr
  cases hr
  unfold dInstantiate at hinst
  split at hinst
  · cases hinst
  cases hinst
  have htree : ((g.dcache.dget e.ptr).update e.ptr (Dentry.instantiate i)) =
      (g.dcache.update e.ptr (Dentry.instantiate i)).dget e.ptr := by
    rw [Dcache.dget, Dcache.dget, Dcache.update_update Dcache.keeps_get,
      Dcache.update_update (Dcache.keeps_instantiate i)]
    rfl
  have hnode := Dcache.node?_update_self (Dcache.keeps_instantiate i)
    (Dcache.node?_of_mem hsg.held.nodup he)
  have hpos : 1 ≤ e.dCount := hsg.held.pos _ he
  have hback := Dcache.dput_dget hnode (show e.dCount ≠ 0 by omega)
  rw [← htree] at hback
  exact mapDcache_congr (h := g.setInode i Inode.incNlink)
    (F := fun t => ((t.dget e.ptr).update e.ptr (Dentry.instantiate i)).dput e.ptr) hback

/-- The tree after a link: the new name's dentry has the inode, and everything
that had one is still there. -/
theorem Linking.bare_eq (hr : g.wjfsLink d.ptr k = .ok (r, none)) :
    ((((r.dput k).dput dir).dput d.ptr).dput o).dcache.bare = (g.sharing k i).dcache.bare ∧
      h.dcache.Covers (g.sharing k i).dcache := by
  have hs₁ := hs.dget o
  have hs₂ := hs₁.dget d.ptr
  have hs₃ := hs₂.dget dir
  have hdi : (((h.dget o).dget d.ptr).dget dir).dInode? dir = some di := by simpa using hL.newDir
  have hsg := (hL.grown hs).sane
  obtain ⟨e, he, rfl, -⟩ := hL.looked.node hs₃ hdi
  have hsb : (g.sharing e.ptr i).Sane := by
    rw [← hL.dput_eq hs hr]
    obtain ⟨-, i', -, hgrown⟩ := wjfsLink_grown hsg he hr
    exact (hgrown.dput e.ptr).sane
  -- what had an inode is still there, and held by the call
  have hcover : (((h.dget o).dget d.ptr).dget dir).dcache.Covers (g.sharing e.ptr i).dcache := by
    refine (hL.looked.covers hs₃ hdi).trans
      (Dcache.covers_update (Dcache.keeps_instantiate i) fun x hx hxk => ?_)
    have hneg := hL.neg
    rwa [← hxk, dInode?_of_mem hsg.held.nodup hx] at hneg
  rw [hL.dput_eq hs hr]
  obtain ⟨x, hx, hxi⟩ := Ready.exists_dentry (h := (h.dget o).dget d.ptr) (by simpa using hL.newDir)
  obtain ⟨hc₂, hb₂⟩ := Dcache.Covers.dput hcover hsb.held.nodup hs₂.held
    (Dcache.mem_nodes_of_node? hx) (Dcache.ptr_of_node? hx) (by rw [hxi]; rfl)
  have hsb₂ := (Fades.dput hsb dir).sane hsb
  have hd := dentryOf?_of_dLookup hs₁.held.nodup hL.found
  obtain ⟨hc₁, hb₁⟩ := Dcache.Covers.dput (t := (h.dget o).dcache) hc₂ hsb₂.held.nodup hs₁.held
    (Dcache.mem_nodes_of_node? hd) rfl (by simp only [hL.inode]; rfl)
  have hsb₁ := (Fades.dput hsb₂ d.ptr).sane hsb₂
  obtain ⟨oi, hoi, -⟩ := isDir_of_walk hL.old
  obtain ⟨y, hy, hyi⟩ := Ready.exists_dentry hoi
  obtain ⟨hc₀, hb₀⟩ := Dcache.Covers.dput (t := h.dcache) hc₁ hsb₁.held.nodup hs.held
    (Dcache.mem_nodes_of_node? hy) (Dcache.ptr_of_node? hy) (by rw [hyi]; rfl)
  exact ⟨hb₀.trans (hb₁.trans hb₂), ((Dcache.covers_dget _ o).trans
    ((Dcache.covers_dget _ d.ptr).trans (Dcache.covers_dget _ dir))).trans hcover⟩

end Link

/-- **A link shows a path more.**  The new path is there after the call and was
not before, and nothing is sent. -/
theorem names_of_sysLink (hs : h.Sane)
    (hok : h.sysLink env oldPath oldName path name = .ok (h', none)) :
    h'.Names (path ++ [name]) false ∧ (∀ b, ¬ h.Names (path ++ [name]) b) ∧
      h'.outbox = h.outbox := by
  obtain ⟨herr, -⟩ | ⟨o, dir, di, i, d, g, k, r, hL, hr, heq⟩ := hs.sysLink_inv hok
  · exact absurd rfl herr
  obtain ⟨hbare, hcover⟩ := hL.bare_eq hs hr
  have hs' : h'.Sane := (sysLink_grown hs hok).sane
  have hroot : h'.root = h.root ∧ h'.outbox = h.outbox ∧ h'.inodes i = (h.inodes i).incNlink := by
    rw [heq, hL.dput_eq hs hr]
    cases hL.looked with
    | hit | miss => exact ⟨rfl, rfl, if_pos rfl⟩
  rw [← heq] at hbare
  have hhas : ∀ {x}, x ∈ (g.sharing k i).dcache.nodes → h'.dcache.Has x := fun hx => by
    rw [Dcache.has_iff_mem_bare, hbare]
    exact Dcache.mem_bare_of_mem hx
  have hkeep : ∀ x ∈ h.dcache.nodes, x.2.dInode.isSome = true → h'.dcache.Has x :=
    fun x hx hsome => by
      obtain ⟨c, -, hc⟩ := hcover x hx hsome
      obtain ⟨b, hb⟩ := hhas hc
      exact ⟨b, hb⟩
  have hdir : h'.AtPath path dir := by
    refine (atPath_of_walk_root hs hL.new).of_has hroot.1 (fun _ => ?_)
      fun p d hd hpos => hkeep _ hd (positive_iff.mp hpos).1
    obtain ⟨j, hj⟩ := exists_dInode?_of_walk hL.new
    obtain ⟨x, hx, hxj⟩ := Ready.exists_dentry hj
    obtain ⟨c, hc⟩ := hkeep x (Dcache.mem_nodes_of_node? hx) (by rw [hxj]; rfl)
    exact Dcache.ptr_of_node? hx ▸ Dcache.mem_ptrs_of_mem (x := (x.1, x.2.withCount c)) hc
  -- the new name's dentry
  have hs₃ := ((hs.dget o).dget d.ptr).dget dir
  obtain ⟨e, he, rfl, ⟨hu, hname⟩, -⟩ := hL.looked.node hs₃ (by simpa using hL.newDir)
  have hnew : (some dir, e.instantiate i) ∈ (g.sharing e.ptr i).dcache.nodes := by
    change _ ∈ (g.dcache.update e.ptr (Dentry.instantiate i)).nodes
    rw [Dcache.nodes_update (Dcache.keeps_instantiate i)]
    exact List.mem_map.mpr ⟨_, he, by simp⟩
  obtain ⟨c, hc⟩ := hhas hnew
  refine ⟨⟨e.ptr, i, ?_, ?_, ?_⟩, fun b ⟨k', _, ha, _⟩ => hL.not_atPath hs k' ha, hroot.2.1⟩
  · have hat := AtPath.child (d := (e.instantiate i).withCount c) hdir hc
      (by simp [Dentry.positive, Dentry.withCount, Dentry.instantiate, hu])
    rwa [show ((e.instantiate i).withCount c).dName = name from hname] at hat
  · exact dInode?_of_mem (x := (some dir, (e.instantiate i).withCount c)) hs'.held.nodup hc
  · rw [hroot.2.2]
    exact hL.file

/-! ## what a rename shows -/

/-- A lookup shows no more names. -/
theorem Looked.shows (hs : h.Sane) (hdi : h.dInode? dir = some di) (hl : h.Looked dir name g k) :
    h.dcache.Shows g.dcache := by
  have hget : ∀ j, h.dcache.Shows (h.dcache.dget j) := fun j => (Fades.dget hs j).tree.shows
  cases hl with
  | hit => exact hget _
  | miss =>
      obtain ⟨z, hz, -⟩ := Ready.exists_dentry hdi
      intro p c hc hpos
      rcases (Dcache.mem_nodes_plant hs.held.nodup (Dcache.mem_ptrs_of_node? hz)).mp hc with
        heq | hc
      · cases heq
        cases hpos
      · exact hget dir p c hc hpos

namespace Renaming

variable (hs : h.Sane) (hR : h.Renaming env oldPath oldName newPath newName p q oi ni d i g k)
include hs hR

/-- Up to `vfs_rename` no names are added. -/
theorem shows : h.dcache.Shows g.dcache := by
  have hs₁ := hs.dget p
  have hs₂ := hs₁.dget q
  have h₁ : h.dcache.Shows (h.dget p).dcache := (Fades.dget hs p).tree.shows
  have h₂ : (h.dget p).dcache.Shows ((h.dget p).dget q).dcache := (Fades.dget hs₁ q).tree.shows
  have h₃ : ((h.dget p).dget q).dcache.Shows (((h.dget p).dget q).dget d.ptr).dcache :=
    (Fades.dget hs₂ d.ptr).tree.shows
  exact ((h₁.trans h₂).trans h₃).trans
    (hR.looked.shows (hs₂.dget d.ptr) (by simpa using hR.newDir))

/-- If both lookups hit, giving the references back leaves the host as it was. -/
theorem undo (hi : g.dInode? k ≠ none) : (((g.dput k).dput d.ptr).dput q).dput p = h := by
  have hs₁ := hs.dget p
  have hs₂ := hs₁.dget q
  have hs₃ := hs₂.dget d.ptr
  have hback : ∀ {h : Host} {j}, h.Sane → j ∈ h.dcache.ptrs → (h.dget j).dput j = h := by
    intro h j hs hj
    obtain ⟨x, hx⟩ := Option.ne_none_iff_exists'.mp fun hnone =>
      Dcache.node?_eq_none_iff.mp hnone hj
    have hpos := hs.held.pos x (Dcache.mem_nodes_of_node? hx)
    exact dput_dget hx (by omega)
  have hmem : ∀ {h : Host} {j o}, h.dInode? j = some o → j ∈ h.dcache.ptrs := fun hj =>
    Dcache.mem_ptrs_of_node? (Ready.exists_dentry hj).choose_spec.1
  have hd := Dcache.mem_ptrs_of_node? (dentryOf?_of_dLookup hs₂.held.nodup hR.found)
  cases hR.looked with
  | @hit e hl hname =>
      have he := Dcache.mem_ptrs_of_node? (dentryOf?_of_dLookup hs₃.held.nodup hl)
      rw [hback hs₃ he, hback hs₂ hd, hback hs₁ (by simpa using hmem hR.newDir),
        hback hs (hmem hR.oldDir)]
  | miss =>
      have hqi : (((h.dget p).dget q).dget d.ptr).dInode? q = some ni := by simpa using hR.newDir
      obtain ⟨z, hz, -⟩ := Ready.exists_dentry hqi
      exact absurd (dInode?_looked_new hs₃.held.nodup hz hs₃.nextPtr_not_mem) hi

/-- After a rename the dentry has the new name only. -/
theorem redirected {e : Dentry} (hP : g.Pair p q d.get e) (hk : e.ptr = k) (isDir : Bool) :
    h.dcache.Redirected ((((((g.exchanged oi ni d.get e isDir).dput k).dput d.ptr).dput q).dput
      p).dcache) q d.ptr newName := by
  have hsg := (hR.grown hs).sane
  have hname : e.dName = newName := by
    obtain ⟨c, hc, hck, ⟨-, hcn⟩, -⟩ :=
      hR.looked.node (((hs.dget p).dget q).dget d.ptr) (by simpa using hR.newDir)
    have heq := Forest.eq_of_mem_flat hsg.held.nodup hP.new hc (hk.trans hck.symm)
    rw [Prod.mk.injEq] at heq
    rw [heq.2, hcn]
  have hf := movedInodes_fades hsg oi ni e.dInode isDir
  have hdc := dcache_movedInodes (h := g) oi ni e.dInode isDir
  have hs₁ := hf.sane hsg
  have hP₁ : (g.movedInodes oi ni e.dInode isDir).Pair p q d.get e :=
    ⟨by rw [hdc]; exact hP.old, by rw [hdc]; exact hP.new, hP.op, hP.hashed, hP.count,
      by rw [hdc]; exact hP.apart⟩
  have hsr : (g.exchanged oi ni d.get e isDir).Sane := (movedTree_grown hs₁ hP₁ isDir).1.sane
  -- the move itself
  have hmoved : g.dcache.Redirected (g.exchanged oi ni d.get e isDir).dcache q d.ptr newName := by
    obtain ⟨f, hkeeps, ⟨hhash, hfn⟩, hfade, htree⟩ := hP.shape hsg isDir
    have hsf := hfade.sane hsg
    have hd' : (some p, d.get) ∈ (g.dcache.update e.ptr f).nodes := by
      rw [Dcache.nodes_update hkeeps]
      exact List.mem_map.mpr ⟨_, hP.old, by simp [show d.ptr ≠ e.ptr from hP.apart.ne]⟩
    have he' : (some q, f e) ∈ (g.dcache.update e.ptr f).nodes := by
      rw [Dcache.nodes_update hkeeps]
      exact List.mem_map.mpr ⟨_, hP.new, by simp⟩
    have ha : (g.dcache.update e.ptr f).Apart p q d.get.ptr (f e).ptr := by
      rw [hkeeps e]
      exact hP.apart.update hkeeps
    have hmove := hsf.held.redirected_dMove hd' he' hP.op hhash ha
    have hsmove := hsf.held.dMove hd' he' hP.op hhash ha
    rw [hkeeps e, hfn, hname] at hmove
    rw [hkeeps e] at hsmove
    have hall := hfade.tree.shows.redirected hmove
    have heq : (g.exchanged oi ni d.get e isDir).dcache =
        movedTree g.dcache d.ptr e.ptr e.dInode.isSome isDir :=
      congrArg (fun t => movedTree t d.ptr e.ptr e.dInode.isSome isDir) hdc
    rw [heq]
    rcases htree with ⟨htree, -⟩ | ⟨htree, -⟩
    · rw [show movedTree g.dcache d.ptr e.ptr e.dInode.isSome isDir = _ from htree]
      exact hall
    · rw [show movedTree g.dcache d.ptr e.ptr e.dInode.isSome isDir = _ from htree]
      have hdput : Dcache.Fades (fun _ => true) _ _ := .dput hsmove.1 e.ptr
      exact hall.shows hdput.shows
  -- the four references
  have hdput : ∀ {g : Host} j, g.Sane → g.dcache.Shows (g.dput j).dcache ∧ (g.dput j).Sane :=
    fun j hs => ⟨(Fades.dput hs j).tree.shows, (Fades.dput hs j).sane hs⟩
  obtain ⟨h₁, hs₁⟩ := hdput k hsr
  obtain ⟨h₂, hs₂⟩ := hdput d.ptr hs₁
  obtain ⟨h₃, hs₃⟩ := hdput q hs₂
  obtain ⟨h₄, -⟩ := hdput p hs₃
  exact (hR.shows hs).redirected (hmoved.shows (((h₁.trans h₂).trans h₃).trans h₄))

/-- The old path leads nowhere after the rename. -/
theorem not_atPath_old (hk : k ≠ d.ptr) (hroot : h'.root = h.root)
    (hred : h.dcache.Redirected h'.dcache q d.ptr newName) (j : Ptr) :
    ¬ h'.AtPath (oldPath ++ [oldName]) j := by
  intro ha
  have hs₂ := (hs.dget p).dget q
  have hs₃ := hs₂.dget d.ptr
  have hp := atPath_of_walk_root hs hR.old
  have hhas : ∀ {x}, x ∈ h.dcache.nodes →
      (((h.dget p).dget q).dget d.ptr).dcache.Has x := fun hx => by
    simp only [dcache_dget, Dcache.has_iff_mem_bare, Dcache.bare_dget]
    exact Dcache.mem_bare_of_mem hx
  -- whatever has the new name is what the second lookup found
  have hfound : ∀ {c}, (some q, c) ∈ h.dcache.nodes → c.dUnhashed = false → c.dName = newName →
      k = c.ptr := fun {c} hc hu hn => by
    obtain ⟨b, hb⟩ := hhas hc
    exact hR.looked.eq_of_hashed (d := c.withCount b) hs₃ hb hu hn
  obtain ⟨c, hc, hcd⟩ := exists_dLookup_of_dget hR.found
  obtain ⟨d₀, hd₀, hcc⟩ := exists_dLookup_of_dget hc
  have hptr : d₀.ptr = d.ptr := by rw [hcd, hcc]; split <;> split <;> rfl
  obtain ⟨-, hu₀, hname₀⟩ := Dcache.dLookup_some hd₀
  have hdm := Dcache.mem_nodes_of_dLookup hs.held.nodup hd₀
  obtain ⟨p', c', hp', hc', hpos', hname', rfl⟩ := ha.snoc_inv
  obtain ⟨ri, hri⟩ := exists_dInode?_of_walk hR.old
  obtain ⟨x, hx, -⟩ := Ready.exists_dentry hri
  rcases hp'.of_redirected hred hroot (Dcache.mem_ptrs_of_node? hx) with
    hp' | ⟨pre, rest, rfl, hpre⟩
  · obtain rfl := hp'.unique hs hp
    rcases hred _ c' hc' hpos' with ⟨rfl, hn, -⟩ | ⟨hne, b, hb, hbpos, hbn, hbp⟩
    · -- one directory and one name
      exact hk ((hfound hdm hu₀ (hname₀.trans (hR.name.trans (hname'.symm.trans hn)))).trans hptr)
    · refine hne (hbp.symm.trans ((hs.held.distinct _ b d₀ hb hdm (positive_iff.mp hbpos).2 hu₀
        ?_).trans hptr))
      exact hbn.trans (hname'.trans (hname₀.trans hR.name).symm)
  · -- the old directory would lie below the target
    obtain ⟨q', c, hq', hc, hpos, hn, hat⟩ := hp.step
    obtain rfl := hq'.unique hs hpre
    have hkc : k = c.ptr := hfound hc (positive_iff.mp hpos).2 hn
    rw [List.append_cons] at hp
    have hbelow := hat.at_or_below hs hp
    obtain ⟨b, hb⟩ : ((h.dget p).dget q').dcache.Has (some q', c) := by
      simp only [dcache_dget, Dcache.has_iff_mem_bare, Dcache.bare_dget]
      exact Dcache.mem_bare_of_mem hc
    have hnot := not_below_target_of_trap (e := c.withCount b) hs₂.held.nodup hb
      (show some c.ptr ≠ _ from hkc ▸ hR.newTrap)
    simp only [dcache_dget, Dcache.dget, Dcache.keys_subdirs_update Dcache.keeps_get,
      Dentry.ptr_withCount] at hnot
    exact hbelow.elim hnot.1 hnot.2

end Renaming

/-- The old and the new name of a rename are names of one file. -/
def OneFile (h : Host) (env : Env) (oldPath : List Bytes) (oldName : Bytes) (newPath : List Bytes)
    (newName : Bytes) : Prop :=
  ∃ p q d e i, h.walk env h.root oldPath = .ok p ∧ h.walk env h.root newPath = .ok q ∧
    h.dcache.dLookup p oldName = some d ∧ h.dcache.dLookup q newName = some e ∧
    d.dInode = some i ∧ e.dInode = some i

/-- The two dentries of a rename have one inode if the names are names of one
file. -/
theorem Renaming.oneFile_iff (hs : h.Sane)
    (hR : h.Renaming env oldPath oldName newPath newName p q oi ni d i g k) :
    h.OneFile env oldPath oldName newPath newName ↔ g.dInode? k = some i := by
  have hs₂ := (hs.dget p).dget q
  have hs₃ := hs₂.dget d.ptr
  have hqi : (((h.dget p).dget q).dget d.ptr).dInode? q = some ni := by simpa using hR.newDir
  have hsame : ∀ {h : Host} {c b : Dentry} {j : Ptr}, b = (if c.ptr = j then c.get else c) →
      b.ptr = c.ptr ∧ b.dInode = c.dInode := fun {_ c b j} hb => by
    rw [hb]
    split <;> exact ⟨rfl, rfl⟩
  obtain ⟨c, hc, hcd⟩ := exists_dLookup_of_dget hR.found
  obtain ⟨d₀, hd₀, hcc⟩ := exists_dLookup_of_dget hc
  rw [hR.name] at hd₀
  constructor
  · rintro ⟨p', q', d', e, i', hp', hq', hd', he, hi, hei⟩
    obtain rfl := Except.ok.inj (hp'.symm.trans hR.old)
    obtain rfl := Except.ok.inj (hq'.symm.trans hR.new)
    obtain rfl := Option.some.inj (hd'.symm.trans hd₀)
    have hii : i' = i := by
      have := (hsame (h := h) hcd).2.trans (hsame (h := h) hcc).2
      rw [hi, hR.inode] at this
      exact (Option.some.inj this).symm
    obtain ⟨-, hu, hname⟩ := Dcache.dLookup_some he
    have hem := Dcache.mem_nodes_of_dLookup hs.held.nodup he
    obtain ⟨b, hb⟩ : (((h.dget p').dget q').dget d.ptr).dcache.Has (some q', e) := by
      simp only [dcache_dget, Dcache.has_iff_mem_bare, Dcache.bare_dget]
      exact Dcache.mem_bare_of_mem hem
    have hk : k = e.ptr := hR.looked.eq_of_hashed (d := e.withCount b) hs₃ hb hu hname
    refine hR.looked.dInode? hs₃.held.nodup hs₃.nextPtr_not_mem hqi ?_
    rw [hk, dInode?_dget, dInode?_dget, dInode?_dget,
      dInode?_of_mem (x := (some q', e)) hs.held.nodup hem]
    exact hei.trans (congrArg some hii)
  · intro hgk
    cases hR.looked with
    | miss =>
        obtain ⟨z, hz, -⟩ := Ready.exists_dentry hqi
        rw [dInode?_looked_new hs₃.held.nodup hz hs₃.nextPtr_not_mem] at hgk
        cases hgk
    | @hit e hl hname =>
        obtain ⟨e₂, he₂, heq₂⟩ := exists_dLookup_of_dget hl
        obtain ⟨e₁, he₁, heq₁⟩ := exists_dLookup_of_dget he₂
        obtain ⟨e₀, he₀, heq₀⟩ := exists_dLookup_of_dget he₁
        have hei : e.dInode = some i := by
          rw [dInode?_dget, Host.dInode?, dentryOf?_of_dLookup hs₃.held.nodup hl] at hgk
          exact hgk
        refine ⟨p, q, d₀, e₀, i, hR.old, hR.new, hd₀, hname ▸ he₀, ?_, ?_⟩
        · exact ((hsame (h := h) hcd).2.trans (hsame (h := h) hcc).2).symm.trans hR.inode
        · exact (((hsame (h := h) heq₂).2.trans (hsame (h := h) heq₁).2).trans
            (hsame (h := h) heq₀).2).symm.trans hei

/-- **A rename hides the old path.**  Unless both names are names of one file,
when nothing happens at all, the old path was there before the call and is not
after it.  Nothing is sent. -/
theorem names_of_sysRename (hs : h.Sane)
    (hok : h.sysRename env oldPath oldName newPath newName = .ok (h', none)) :
    (h.OneFile env oldPath oldName newPath newName ∧ h' = h) ∨
      ¬ h.OneFile env oldPath oldName newPath newName ∧
        (∃ b, h.Names (oldPath ++ [oldName]) b) ∧ (∀ b, ¬ h'.Names (oldPath ++ [oldName]) b) ∧
        h'.outbox = h.outbox := by
  obtain ⟨herr, -⟩ | ⟨p, q, oi, ni, d, i, g, k, r, hR, hr, rfl⟩ := hs.sysRename_inv hok
  · exact absurd rfl herr
  have hs₂ := (hs.dget p).dget q
  have hs₃ := hs₂.dget d.ptr
  have hsg := (hR.grown hs).sane
  have hdi : g.dInode? d.ptr = some i := by
    refine hR.looked.dInode? hs₃.held.nodup hs₃.nextPtr_not_mem (by simpa using hR.newDir) ?_
    rw [dInode?_dget, Host.dInode?, dentryOf?_of_dLookup hs₂.held.nodup hR.found]
    exact hR.inode
  by_cases hone : h.OneFile env oldPath oldName newPath newName
  · have hgk := (hR.oneFile_iff hs).mp hone
    have hrg : r = g := by
      unfold vfsRename at hr
      simp only [inodeOf?, hdi, hgk, Option.map_some, if_true] at hr
      cases hr
      rfl
    subst hrg
    exact .inl ⟨hone, hR.undo hs (by rw [hgk]; exact Option.some_ne_none _)⟩
  refine .inr ⟨hone, ?_⟩
  have hgk : g.dInode? k ≠ some i := fun hgk => hone ((hR.oneFile_iff hs).mpr hgk)
  have hkd : k ≠ d.ptr := fun hk => hgk (hk ▸ hdi)
  obtain ⟨e, hP, hek, -⟩ := hR.exists_pair hs hkd
  have hei : e.dInode ≠ some i := by
    rw [← dInode?_of_mem (x := (some q, e)) hsg.held.nodup hP.new]
    exact hek ▸ hgk
  rcases vfsRename_cases (d := d.get) hsg.held.nodup hP.old (hsg.unmounted _ hP.old) hR.inode hP.new
    (hsg.unmounted _ hP.new) hP.hashed (hsg.held.pos _ hP.new)
    (fun h => by have := hP.count h; omega) (hek ▸ hr) with ⟨-, hfail⟩ | ⟨-, -, -, rfl, -⟩
  · exact absurd (hfail.resolve_left fun h => h rfl) hei
  have hframe : ∀ b, (g.exchanged oi ni d.get e b).root = h.root ∧
      (g.exchanged oi ni d.get e b).outbox = h.outbox := fun b => by
    have hg : g.root = h.root ∧ g.outbox = h.outbox := by
      cases hR.looked with
      | hit | miss => exact ⟨rfl, rfl⟩
    rw [← hg.1, ← hg.2]
    unfold exchanged movedInodes
    split <;> exact ⟨rfl, rfl⟩
  refine ⟨?_, fun b hb => ?_, (hframe _).2⟩
  · obtain ⟨c, hc, hcd⟩ := exists_dLookup_of_dget hR.found
    obtain ⟨d₀, hd₀, hcc⟩ := exists_dLookup_of_dget hc
    have hi₀ : d₀.dInode = some i := by
      rw [← hR.inode, hcd, hcc]
      split <;> split <;> rfl
    rw [hR.name] at hd₀
    refine ⟨_, d₀.ptr, i, atPath_of_dLookup hs (atPath_of_walk_root hs hR.old) hd₀ hi₀, ?_, rfl⟩
    exact (dInode?_of_mem (x := (some p, d₀)) hs.held.nodup
      (Dcache.mem_nodes_of_dLookup hs.held.nodup hd₀)).trans hi₀
  · obtain ⟨j, -, ha, -⟩ := hb
    refine hR.not_atPath_old hs hkd ?_ (hR.redirected hs hP hek _) j ha
    exact (hframe _).1

/-! ## two hosts -/

/-- Both hosts show the same paths. -/
def SamePaths (A B : Host) : Prop := ∀ path isDir, A.Names path isDir ↔ B.Names path isDir

/-- The table entries of the links of `B` carry the numbers that the files have
on `A`. -/
def Carries (A B : Host) : Prop :=
  ∀ path k k' i', A.AtPath path k → B.AtPath path k' → B.dInode? k' = some i' →
    B.isMyFile k' = .ok false → ∀ ino name inoParent nameParent,
      A.frameFields k = .ok (ino, name, inoParent, nameParent) →
      ∃ e ∈ B.table.live, e.localIno = B.number i' ∧ e.rdmaIno = ino ∧
        e.rdmaParentIno = inoParent

/-- The hosts show the same paths, and every link's entry is up to date. -/
structure Agree (A B : Host) : Prop where
  paths : SamePaths A B
  left : Carries A B
  right : Carries B A

/-- Handle frames one after the other. -/
def handle (srv : Env) (stale : Stale) (ip : Bytes) : List Bytes → Host → Except Fault Host
  | [], h => .ok h
  | buf :: bufs, h => do handle srv stale ip bufs (← h.serve srv stale ip buf).host

/-- The frames that a call sent. -/
def sent (h h' : Host) : List Bytes := h'.outbox.drop h.outbox.length

/-- What a removal of one of the paths of `A` would send fits exactly one entry
of `B`, and that entry is the one for the path. -/
def Matched (A B : Host) : Prop :=
  ∀ path name k, A.AtPath (path ++ [name]) k → A.isMyFile k = .ok true →
    ∀ ino fileName inoParent nameParent,
      A.frameFields k = .ok (ino, fileName, inoParent, nameParent) →
      ∃ k' i', B.AtPath (path ++ [name]) k' ∧ B.dInode? k' = some i' ∧
        (B.table.live.filter (Table.rdmaMatch ino inoParent)).map Entry.localIno = [B.number i']

/-- Removing a path on `A` removes it, and no other, on `B`. -/
def RemovesAlone (srv : Env) (stale : Stale) (ip : Bytes) (A B : Host) : Prop :=
  ∀ path name k, A.AtPath (path ++ [name]) k → A.isMyFile k = .ok true →
    ∀ env : Env, env.connects = true → ∀ A' B', A.sysUnlink env path name = .ok (A', none) ∨
      A.sysRmdir env path name = .ok (A', none) → handle srv stale ip (A.sent A') B = .ok B' →
      ∀ q isDir, B'.Names q isDir ↔ B.Names q isDir ∧ q ≠ path ++ [name]

/-- The hosts are in step: they show the same paths, and removals on `A` mean
the same paths on `B`. -/
structure InStep (srv : Env) (stale : Stale) (ip : Bytes) (A B : Host) : Prop where
  paths : SamePaths A B
  matched : Matched A B
  alone : RemovesAlone srv stale ip A B

end Host

/-- The two calls that give a file another name. -/
inductive Op.Renames : Op → Prop
  | link {oldPath oldName path name} : Op.Renames (.link oldPath oldName path name)
  | rename {oldPath oldName newPath newName} :
      Op.Renames (.rename oldPath oldName newPath newName)

/-- The call is a rename between two names of one file. -/
def Op.OneFile (A : Host) (env : Env) : Op → Prop
  | .rename oldPath oldName newPath newName => A.OneFile env oldPath oldName newPath newName
  | _ => False

namespace Host

/-- **Rename, link and the other host.**  A rename or link that succeeds sends
nothing.  If the hosts agreed before it, they are in step after it only if it
was a rename between two names of one file, which does nothing, and they were
in step before. -/
theorem inStep_iff {ok : Host → Event → Prop} {A A' B : Host} {op : Op} (hA : Run ok A)
    (hagree : Agree A B) (hop : op.Renames) (hok : A.call env op = .ok (A', none)) (srv : Env)
    (stale : Stale) (ip : Bytes) :
    handle srv stale ip (A.sent A') B = .ok B ∧
      (InStep srv stale ip A' B ↔ op.OneFile A env ∧ InStep srv stale ip A B) := by
  have hs := hA.sane
  -- a path that only one of the two hosts shows
  have hdiffer : ∀ {path b}, A'.Names path b → (∀ b, ¬ A.Names path b) →
      ¬ InStep srv stale ip A' B := fun hyes hno hstep =>
    hno _ ((hagree.paths _ _).mpr ((hstep.paths _ _).mp hyes))
  have hdiffer' : ∀ {path b}, A.Names path b → (∀ b, ¬ A'.Names path b) →
      ¬ InStep srv stale ip A' B := fun hyes hno hstep =>
    hno _ ((hstep.paths _ _).mpr ((hagree.paths _ _).mp hyes))
  have hnone : A'.outbox = A.outbox → handle srv stale ip (A.sent A') B = .ok B := fun heq => by
    rw [sent, heq, List.drop_length]
    rfl
  cases hop with
  | link =>
      obtain ⟨hyes, hno, hbox⟩ := names_of_sysLink hs hok
      exact ⟨hnone hbox, fun hstep => absurd hstep (hdiffer hyes hno), fun h => h.1.elim⟩
  | rename =>
      rcases names_of_sysRename hs hok with ⟨hone, rfl⟩ | ⟨hone, ⟨b, hyes⟩, hno, hbox⟩
      · exact ⟨hnone rfl, fun hstep => ⟨hone, hstep⟩, fun h => h.2⟩
      · exact ⟨hnone hbox, fun hstep => absurd hstep (hdiffer' hyes hno), fun h => absurd h.1 hone⟩

end Host

/-! ## one file on two hosts -/

namespace Host

/-- The host shows its root and one file in it. -/
structure ShowsOne (h : Host) (r d : Dentry) (i j : Ptr) : Prop where
  nodes : h.dcache.nodes = [(none, r), (some r.ptr, d)]
  root : h.root = r.ptr
  rootInode : r.dInode = some i
  inode : d.dInode = some j
  rootDir : (h.inodes i).isDir = true
  file : (h.inodes j).isDir = false
  hashed : d.dUnhashed = false
  ne : d.ptr ≠ r.ptr

namespace ShowsOne

variable {h : Host} {path : List Bytes} {r d : Dentry} {i j k : Ptr} {b : Bool}
  (ho : h.ShowsOne r d i j)
include ho

theorem dInode?_root : h.dInode? r.ptr = some i := by
  rw [Host.dInode?, dentryOf?, Dcache.node?, Forest.node?]
  change ((h.dcache.nodes.find? _).bind _) = _
  simp [ho.nodes, ho.rootInode]

theorem dInode?_file : h.dInode? d.ptr = some j := by
  rw [Host.dInode?, dentryOf?, Dcache.node?, Forest.node?]
  change ((h.dcache.nodes.find? _).bind _) = _
  simp [ho.nodes, ho.inode, ho.ne.symm]

theorem atPath_iff : h.AtPath path k ↔ path = [] ∧ k = r.ptr ∨ path = [d.dName] ∧ k = d.ptr := by
  have hroot : h.AtPath [] r.ptr := by
    rw [← ho.root]
    refine .root ?_
    rw [ho.root]
    exact Dcache.mem_ptrs_of_mem (x := (none, r)) (by simp [ho.nodes])
  constructor
  · intro ha
    induction ha with
    | root => exact .inl ⟨rfl, ho.root⟩
    | @child path p c _ hc hpos ih =>
        rw [ho.nodes] at hc
        simp only [List.mem_cons, Prod.mk.injEq, reduceCtorEq, false_and, Option.some.injEq,
          List.not_mem_nil, or_false, false_or] at hc
        obtain ⟨rfl, rfl⟩ := hc
        rcases ih with ⟨rfl, -⟩ | ⟨-, hk⟩
        · exact .inr ⟨rfl, rfl⟩
        · exact absurd hk.symm ho.ne
  · rintro (⟨rfl, rfl⟩ | ⟨rfl, rfl⟩)
    · exact hroot
    · exact .child hroot (by simp [ho.nodes])
        (positive_iff.mpr ⟨by rw [ho.inode]; rfl, ho.hashed⟩)

theorem names_iff : h.Names path b ↔ path = [] ∧ b = true ∨ path = [d.dName] ∧ b = false := by
  constructor
  · rintro ⟨k, i', ha, hi, rfl⟩
    rcases ho.atPath_iff.mp ha with ⟨rfl, rfl⟩ | ⟨rfl, rfl⟩
    · rw [ho.dInode?_root] at hi
      exact .inl ⟨rfl, Option.some.inj hi ▸ ho.rootDir⟩
    · rw [ho.dInode?_file] at hi
      exact .inr ⟨rfl, Option.some.inj hi ▸ ho.file⟩
  · rintro (⟨rfl, rfl⟩ | ⟨rfl, rfl⟩)
    · exact ⟨r.ptr, i, ho.atPath_iff.mpr (.inl ⟨rfl, rfl⟩), ho.dInode?_root, ho.rootDir⟩
    · exact ⟨d.ptr, j, ho.atPath_iff.mpr (.inr ⟨rfl, rfl⟩), ho.dInode?_file, ho.file⟩

end ShowsOne

end Host

/-- `creat("/x")`. -/
def makeX : Event := .call (Env.server true) (.create [] [120] 0o644)

/-- The frame that the call sends. -/
def announceX : Event := .create true (wjfsClientCreate 2 [120] 1 Host.rootName false) []

/-- A root with one child. -/
def parentOfOne : Dentry := (Host.rootDentry 0 1).withCount 3

/-- Its child. -/
def onlyChild (name : Bytes) : Dentry := (Host.liveDentry 2 name 3).withCount 1

/-- What both hosts are asked. -/
def Host.survey (h : Host) : List (Option Ptr × Dentry) × Ptr × Bool × Bool :=
  (h.dcache.nodes, h.root, (h.inodes 1).isDir, (h.inodes 3).isDir)

theorem Host.showsOne_of_survey {h : Host} {name : Bytes}
    (hs : h.survey = ([(none, parentOfOne), (some 0, onlyChild name)], 0, true, false)) :
    h.ShowsOne parentOfOne (onlyChild name) 1 3 := by
  simp only [survey, Prod.mk.injEq] at hs
  exact ⟨hs.1, hs.2.1, rfl, rfl, hs.2.2.1, hs.2.2.2, rfl, show (2 : Ptr) ≠ 0 by decide⟩

/-- The maker of `x` and its peer agree. -/
theorem exists_agree : ∃ A B, (Host.mounted 0 0o755 0 Table.initial).step makeX = .ok A ∧
    (Host.mounted 0 0o755 0 Table.initial).step announceX = .ok B ∧ A.Agree B ∧
    B.ShowsOne parentOfOne (onlyChild [120]) 1 3 := by
  have hA : ((Host.mounted 0 0o755 0 Table.initial).step makeX).toOption.map Host.survey =
      some ([(none, parentOfOne), (some 0, onlyChild [120])], 0, true, false) := by
    decide
  have hA' : ((Host.mounted 0 0o755 0 Table.initial).step makeX).toOption.map
      (fun h => (h.table.live.length, (h.frameFields 2).toOption.map fun f => (f.1, f.2.2.1))) =
      some (0, some (2, 1)) := by decide +kernel
  have hB : ((Host.mounted 0 0o755 0 Table.initial).step announceX).toOption.map Host.survey =
      some ([(none, parentOfOne), (some 0, onlyChild [120])], 0, true, false) := by
    decide
  have hB' : ((Host.mounted 0 0o755 0 Table.initial).step announceX).toOption.map
      (fun h => (h.number 1, h.number 3,
        h.table.live.map fun e => (e.localIno, e.rdmaIno, e.rdmaParentIno))) =
      some (1, 2, [(2, 2, 1)]) := by decide +kernel
  obtain ⟨A, hstepA, hsurveyA⟩ := exists_of_toOption_map hA
  obtain ⟨B, hstepB, hsurveyB⟩ := exists_of_toOption_map hB
  rw [hstepA] at hA'
  rw [hstepB] at hB'
  simp only [Except.toOption, Option.map_some, Option.some.injEq, Prod.mk.injEq] at hA' hB'
  have hoA := Host.showsOne_of_survey hsurveyA
  have hoB := Host.showsOne_of_survey hsurveyB
  refine ⟨A, B, hstepA, hstepB, ⟨fun path isDir => hoA.names_iff.trans hoB.names_iff.symm, ?_, ?_⟩,
    hoB⟩
  · obtain ⟨hroot, hnum, hlive⟩ := hB'
    obtain ⟨e, hlive, he⟩ := List.map_eq_singleton_iff.mp hlive
    simp only [Prod.mk.injEq] at he
    intro path k k' i' ha hb hi' hmine ino name inoParent nameParent hf
    rcases hoB.atPath_iff.mp hb with ⟨-, rfl⟩ | ⟨rfl, rfl⟩
    · -- the root is no link
      have htrue : B.table.isMyFile (B.number 1) = true := by
        rw [Table.isMyFile_iff, hlive, hroot]
        simp [he]
      rw [Host.isMyFile, Host.inodeOf?, hoB.dInode?_root] at hmine
      exact absurd (htrue.symm.trans (Except.ok.inj hmine)) (by decide)
    · obtain ⟨h, -⟩ | ⟨-, rfl⟩ := hoA.atPath_iff.mp ha
      · cases h
      have hfields := hA'.2
      rw [show A.frameFields 2 = _ from hf] at hfields
      simp only [Option.map_some, Option.some.injEq, Prod.mk.injEq] at hfields
      rw [hoB.dInode?_file] at hi'
      cases hi'
      refine ⟨e, by simp [hlive], he.1.trans hnum.symm, he.2.1.trans hfields.1.symm,
        he.2.2.trans hfields.2.symm⟩
  · intro path k k' i' _ _ hi' hmine
    have htrue : A.table.isMyFile (A.number i') = true := by
      rw [Table.isMyFile_iff, List.eq_nil_of_length_eq_zero hA'.1]
      exact fun _ h => (by cases h)
    rw [Host.isMyFile, Host.inodeOf?, hi'] at hmine
    exact absurd (htrue.symm.trans (Except.ok.inj hmine)) (by decide)

/-- `rename("/x", "/x")` leaves the hosts in step if they were. -/
theorem inStep_iff_same : ∃ A A' B : Host, A.Agree B ∧
    A.call (Env.server true) (.rename [] [120] [] [120]) = .ok (A', none) ∧
    (Host.InStep (Env.server true) zeroStack [] A' B ↔
      (Op.rename [] [120] [] [120]).OneFile A (Env.server true) ∧
        Host.InStep (Env.server true) zeroStack [] A B) := by
  obtain ⟨A, B, hstep, -, hagree, -⟩ := exists_agree
  have hrun : Host.Run (fun _ _ => True) A :=
    .step (.mount 0 0o755 0 Table.initial) trivial hstep
  have hcall : ((Host.mounted 0 0o755 0 Table.initial).step makeX >>= fun h =>
      h.call (Env.server true) (.rename [] [120] [] [120])).toOption.map (fun r => r.2) =
        some none := by decide
  obtain ⟨⟨A', err⟩, hok, herr⟩ := exists_of_toOption_map hcall
  rw [hstep] at hok
  cases herr
  exact ⟨A, A', B, hagree, hok, (Host.inStep_iff hrun hagree .rename hok _ _ _).2⟩

/-- `rename("/x", "/y")` on the host that made `x`: the peer still shows `x`,
and does not show `y`. -/
theorem renamed_out_of_step : ∃ A A' B : Host, A.Agree B ∧
    A.call (Env.server true) (.rename [] [120] [] [121]) = .ok (A', none) ∧ A.sent A' = [] ∧
    A'.Names [[121]] false ∧ ¬ A'.Names [[120]] false ∧ B.Names [[120]] false ∧
    ¬ B.Names [[121]] false := by
  obtain ⟨A, B, hstep, -, hagree, hoB⟩ := exists_agree
  have hcall : ((Host.mounted 0 0o755 0 Table.initial).step makeX >>= fun h =>
      h.call (Env.server true) (.rename [] [120] [] [121])).toOption.map
        (fun r => (r.1.survey, r.2)) =
      some (([(none, parentOfOne), (some 0, onlyChild [121])], 0, true, false), none) := by
    decide +kernel
  have hbox : ((Host.mounted 0 0o755 0 Table.initial).step makeX).toOption.map
      (fun h => h.outbox.length) = some 1 := by decide +kernel
  have hbox' : ((Host.mounted 0 0o755 0 Table.initial).step makeX >>= fun h =>
      h.call (Env.server true) (.rename [] [120] [] [121])).toOption.map
        (fun r => r.1.outbox.length) = some 1 := by decide +kernel
  obtain ⟨⟨A', err⟩, hok, hval⟩ := exists_of_toOption_map hcall
  rw [hok] at hbox'
  rw [hstep] at hok hbox
  simp only [Prod.mk.injEq] at hval
  obtain ⟨hsurvey, rfl⟩ := hval
  have hoA := Host.showsOne_of_survey (h := A') hsurvey
  have hsent : A.sent A' = [] := by
    rw [Host.sent, List.drop_eq_nil_iff]
    exact Nat.le_of_eq ((Option.some.inj hbox').trans (Option.some.inj hbox).symm)
  refine ⟨A, A', B, hagree, hok, hsent, hoA.names_iff.mpr ?_, mt hoA.names_iff.mp ?_,
    hoB.names_iff.mpr ?_, mt hoB.names_iff.mp ?_⟩
  · exact .inr ⟨rfl, rfl⟩
  · decide
  · exact .inr ⟨rfl, rfl⟩
  · decide

end Wjfs
