import Wjfs.Host.Places
import Wjfs.Net

/-!
# Wjfs.Converge

What the two hosts agree on when no frame is under way.

The visible tree of an orderly host is a function of its rows, which name the
directory of a file and not its path.  When all frames are handled the rows of
both hosts are the same, so every path leads to the same kind of file on both.
-/

namespace Wjfs

open Replica

namespace Host

variable {h : Host} {mine : Set Ptr} {path : List Bytes} {n : Bytes} {k : Ptr} {b : Bool}

namespace Orderly

/-- A dentry at a path has a row that the path leads to. -/
theorem leads_of_atPath (ho : Orderly mine h) (ha : h.AtPath path k) : ∃ i n,
    h.dInode? k = some i ∧ h.dName? k = some n ∧
      Leads rootName (h.Owns mine ∪ h.Copies mine) path n (h.inodes i).isDir := by
  induction ha with
  | root =>
      obtain ⟨i, hi, hdir⟩ := ho.tidy.root_dir
      refine ⟨i, rootName, hi, ho.dName?_root, ?_⟩
      rw [hdir]
      exact .root
  | @child path p d _ hd _ ih =>
      obtain ⟨l, m, -, hm, hleads⟩ := ih
      obtain ⟨x, i, j, hs⟩ := ho.exists_seat (Dcache.mem_bare_of_mem hd)
      obtain ⟨z, hz, hzx⟩ := Dcache.exists_of_mem_bare hs.parent
      -- the directory of the row is the one at the path
      have hname : x.2.dName = m := by
        have hzp : z.2.ptr = p := (congrArg (fun v => v.2.ptr) hzx).trans hs.parentPtr
        have hzn : z.2.dName = x.2.dName := congrArg (fun v => v.2.dName) hzx
        exact hzn.symm.trans (Option.some.inj ((ho.dName?_of_mem hz).symm.trans (hzp ▸ hm)))
      have hchild : ∀ f ∈ h.Owns mine ∪ h.Copies mine, f.name = d.dName → f.parent = m →
          Leads rootName (h.Owns mine ∪ h.Copies mine) (path ++ [d.dName]) d.dName f.isDir := by
        intro f hf hfn hfp
        rw [← hfn]
        exact .child (hfp ▸ hleads) hf
      refine ⟨i, d.dName, (dInode?_of_mem ho.tidy.sound.nodup hd).trans hs.inode,
        ho.dName?_of_mem hd, ?_⟩
      have hrow : h.HasRow i (h.row (d.withCount 0) x i j) := ⟨p, _, x, j, hs, rfl⟩
      rcases ho.mem_owns_or_copies hrow with hf | ⟨r, hr, hrn, hrp, hrdir⟩
      · exact hchild _ (.inl hf) rfl hname
      · have hdir : r.isDir = (h.inodes i).isDir := hrdir
        rw [← hdir]
        exact hchild r (.inr hr) hrn (hrp.trans hname)

/-- A path that the rows lead along is there. -/
theorem atPath_of_leads (ho : Orderly mine h)
    (hl : Leads rootName (h.Owns mine ∪ h.Copies mine) path n b) : ∃ k i,
      h.AtPath path k ∧ h.dName? k = some n ∧ h.dInode? k = some i ∧ (h.inodes i).isDir = b := by
  induction hl with
  | root =>
      obtain ⟨i, hi, hdir⟩ := ho.tidy.root_dir
      exact ⟨h.root, i, .root ho.tidy.sound.root_mem, ho.dName?_root, hi, hdir⟩
  | @child path f b _ hf ih =>
      obtain ⟨k, -, ha, hk, -⟩ := ih
      obtain ⟨i, r, ⟨p, d, x, j, hs, rfl⟩, hname, hparent, hdir⟩ := exists_hasRow hf
      obtain ⟨⟨q, e⟩, he, heq⟩ := Dcache.exists_of_mem_bare hs.mem
      cases heq
      have hp : p = k := by
        obtain ⟨z, hz, hzn⟩ := Option.map_eq_some_iff.mp hk
        have hzx := ho.eq_of_name (Dcache.mem_bare_of_mem (Dcache.mem_nodes_of_node? hz)) hs.parent
          (hzn.trans hparent)
        have hptr : z.2.ptr = x.2.ptr := congrArg (fun v => v.2.ptr) hzx
        exact hs.parentPtr.symm.trans (hptr.symm.trans (Dcache.ptr_of_node? hz))
      subst hp
      have hlive := ho.tidy.ready.live p e he
      have hen : f.name = e.dName := hname
      rw [hen]
      exact ⟨e.ptr, i, .child ha he (positive_iff.mpr ⟨hlive.2.2.2, hlive.1⟩), ho.dName?_of_mem he,
        (dInode?_of_mem ho.tidy.sound.nodup he).trans hs.inode, hdir.symm⟩

/-- The visible tree of an orderly host can be told from its rows. -/
theorem names_iff (ho : Orderly mine h) : h.Names path b ↔
    ∃ n, Leads rootName (h.Owns mine ∪ h.Copies mine) path n b := by
  constructor
  · rintro ⟨k, i, ha, hi, rfl⟩
    obtain ⟨j, n, hj, -, hl⟩ := ho.leads_of_atPath ha
    obtain rfl := Option.some.inj (hi.symm.trans hj)
    exact ⟨n, hl⟩
  · rintro ⟨n, hl⟩
    obtain ⟨k, i, ha, -, hi, hdir⟩ := ho.atPath_of_leads hl
    exact ⟨k, i, ha, hi, hdir⟩

end Orderly

end Host

namespace Net

variable {lastIno : Bool → CInt} {perm : Bool → BitVec 12} {nextPtr : Bool → Ptr}
  {table : Bool → Table} {N : Net} {S : State Bytes (CInt × CInt)} {s : Bool}

/-- No frame that makes or removes a link is under way. -/
def Settled (N : Net) : Prop := ∀ s, ∀ buf ∈ (N s).host.outbox, buf.take 2 = tagWR

instance (N : Net) : Decidable N.Settled := by unfold Settled; infer_instance

theorem Refines.queue_eq_nil (hr : N.Refines S) (hq : N.Settled) (s : Bool) : S.queue s = [] := by
  have hfilter := (hr.shows s).outbox
  have hnone : (N s).host.outbox.filter isControl = [] := by
    refine List.filter_eq_nil_iff.mpr fun buf hbuf => ?_
    rw [isControl, hq s buf hbuf]
    decide
  exact List.map_eq_nil_iff.mp (hfilter.symm.trans hnone)

/-- Then both hosts have the same paths. -/
theorem Refines.names_iff (hS : N.Refines S) (hq : N.Settled) (path : List Bytes) (b : Bool) :
    (N false).host.Names path b ↔ (N true).host.Names path b := by
  have htree := hS.inv.tree_eq (hS.queue_eq_nil hq) false
  rw [Bool.not_false, hS.tree_eq, hS.tree_eq] at htree
  rw [(hS.shows false).orderly.names_iff, (hS.shows true).orderly.names_iff, htree]

/-- **The hosts agree**: whatever calls, reads, writes and deliveries happened,
in any order that is safe, when no frame is under way that makes or removes a
link, every path leads to the same kind of file on both hosts. -/
theorem trees_agree (hino : ∀ s, InRange (lastIno s + 1))
    (hr : Run Safe (mounted lastIno perm nextPtr table) N) (hq : N.Settled) (path : List Bytes)
    (b : Bool) : (N false).host.Names path b ↔ (N true).host.Names path b := by
  obtain ⟨S, hS⟩ := hr.refines hino
  exact hS.names_iff hq path b

/-- One host has made the directory `d` and the other has heard of it. -/
theorem trees_agree_shared : ∃ N, shared (.mkdir [] [100] 0o755) = .ok N ∧ N.Settled ∧
    ∀ path b, (N false).host.Names path b ↔ (N true).host.Names path b := by
  have hval : (shared (.mkdir [] [100] 0o755)).toOption.map (fun N => decide N.Settled) =
      some true := by
    decide
  obtain ⟨N, hN, hq⟩ := exists_of_toOption_map hval
  exact ⟨N, hN, of_decide_eq_true hq, trees_agree (by decide)
    (run_shared rfl (by decide) (by decide) hN) (of_decide_eq_true hq)⟩

end Net

end Wjfs
