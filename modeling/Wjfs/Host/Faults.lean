import Wjfs.Host.MakeLink
import Wjfs.Table.Laws

/-!
# Wjfs.Host.Faults

How a create frame fails.

`rdma_create` checks nothing on its way: a parent that is not found, a lookup
that returns an error, a name that is taken and a table without a free entry
each end in a pointer that must not be followed, a `BUG_ON` or a store past
the array.  `placeFault` names the first of them that the code runs into, and
`rdmaCreateParsed_error_iff` says that there is no other.
-/

namespace Wjfs

namespace Host

variable {h g : Host} {env : Env} {c : Control} {ip : Bytes} {parent dir k : Ptr} {mode : Mode}
  {e : Fault}

/-- The first thing that is wrong with the place where a link is to be made. -/
def placeFault (env : Env) (h : Host) (c : Control) : Option Fault :=
  match h.resolveParent c.nameParent with
  | none => some .nullDeref
  | some parent =>
      match h.inodeOf? parent with
      | none => some .nullDeref
      | some i =>
          if c.name = [] ∨ 47 ∈ c.name ∨ 0 ∈ c.name then some .errPtr
          else if env.inodePermission i .exec = false then some .errPtr
          else
            match h.dcache.dLookup parent c.name with
            | some d =>
                if env.newInode = false then some .nullDeref
                else if d.dInode.isSome then some .bug
                else none
            | none =>
                if i.dead then some .errPtr
                else if i.isDir = false then some .nullDeref
                else if 255 < c.name.length then some .errPtr
                else if env.newInode = false then some .nullDeref
                else none

/-! ## binding an inode -/

/-- Without memory `wjfs_mknod_rdma` returns `-ENOSPC`, and a dentry that has
an inode is the `BUG_ON` of `d_instantiate`. -/
theorem wjfsMknodRdma_cases (env : Env) (g : Host) (dir k : Ptr) (mode : Mode) :
    (env.newInode = false ∧ g.wjfsMknodRdma env dir k mode = .ok (g, some .enospc)) ∨
      (env.newInode = true ∧ (g.dInode? k).isSome = true ∧
        g.wjfsMknodRdma env dir k mode = .error .bug) ∨
      env.newInode = true ∧ g.dInode? k = none ∧
        ∃ r, g.wjfsMknodRdma env dir k mode = .ok (r, none) := by
  cases henv : env.newInode with
  | false => exact .inl ⟨rfl, by simp [wjfsMknodRdma, wjfsGetInode, henv]⟩
  | true =>
      -- the lookup of the dentry is not touched by the new inode
      have hsame : ∀ (r : Host) (i : Ptr), r.dcache = g.dcache →
          (r.inheritSgid dir i mode).dInode? k = g.dInode? k := by
        intro r i hr
        unfold inheritSgid dInode? dentryOf?
        rw [← hr]
        split <;> rfl
      cases hk : g.dInode? k with
      | some j =>
          refine .inr (.inl ⟨rfl, rfl, ?_⟩)
          simp only [wjfsMknodRdma, wjfsGetInode, henv, if_true, dInstantiate]
          rw [hsame, hk]
          · rfl
          · rfl
      | none =>
          refine .inr (.inr ⟨rfl, rfl, ?_⟩)
          simp only [wjfsMknodRdma, wjfsGetInode, henv, if_true, dInstantiate]
          rw [hsame, hk]
          · exact ⟨_, rfl⟩
          · rfl

/-- What `makeLink` comes to once the name was looked up. -/
theorem makeLink_of_lookup (hres : h.resolveParent c.nameParent = some parent)
    (hdir : h.dInode? parent = some dir) (hlook : h.lookupOneLen env parent c.name = .ok (g, .ok k))
    (hg : g.dInode? parent = some dir) :
    (env.newInode = false ∧ h.makeLink env c = .error .nullDeref) ∨
      (env.newInode = true ∧ (g.dInode? k).isSome = true ∧ h.makeLink env c = .error .bug) ∨
      env.newInode = true ∧ g.dInode? k = none ∧ ∃ r, h.makeLink env c = .ok r := by
  have hmake : h.makeLink env c =
      match g.wjfsMknodRdma env dir k (linkMode c.mode) with
      | .error e => .error e
      | .ok (r, some _) => .error .nullDeref
      | .ok (r, none) => .ok (r.mapDcache (·.update k Dentry.dec), k, parent) := by
    simp only [makeLink, hres, hdir, wjfsCreateFile, wjfsCreateByName, hlook, hg, bind, Except.bind,
      Option.isNone_some, Bool.false_eq_true, if_false]
    cases g.wjfsMknodRdma env dir k (linkMode c.mode) with
    | error e => rfl
    | ok r =>
        obtain ⟨r, _ | err⟩ := r
        · rfl
        · rfl
  rw [hmake]
  obtain ⟨henv, hmk⟩ | ⟨henv, hk, hmk⟩ | ⟨henv, hk, r, hmk⟩ :=
    wjfsMknodRdma_cases env g dir k (linkMode c.mode)
  · exact .inl ⟨henv, by rw [hmk]⟩
  · exact .inr (.inl ⟨henv, hk, by rw [hmk]⟩)
  · exact .inr (.inr ⟨henv, hk, _, by rw [hmk]⟩)

/-! ## looking the name up -/

/-- A name that `lookup_one_len` gives no dentry for. -/
theorem makeLink_of_error {err : Errno} (hres : h.resolveParent c.nameParent = some parent)
    (hdir : h.dInode? parent = some dir)
    (hlook : h.lookupOneLen env parent c.name = .ok (g, .error err)) :
    h.makeLink env c = .error .errPtr := by
  simp only [makeLink, hres, hdir, wjfsCreateFile, wjfsCreateByName, hlook, bind, Except.bind,
    Option.isNone_some, Bool.false_eq_true, if_false]

/-- `makeLink` fails as `placeFault` says, and only then. -/
theorem makeLink_cases (hs : h.Sane) (env : Env) (c : Control) :
    (∃ e, placeFault env h c = some e ∧ h.makeLink env c = .error e) ∨
      placeFault env h c = none ∧ ∃ r, h.makeLink env c = .ok r := by
  unfold placeFault
  cases hres : h.resolveParent c.nameParent with
  | none => exact .inl ⟨.nullDeref, rfl, by simp only [makeLink, hres]⟩
  | some parent =>
  cases hdir : h.dInode? parent with
  | none =>
      refine .inl ⟨.nullDeref, by simp only [inodeOf?, hdir, Option.map_none], ?_⟩
      simp only [makeLink, hres, hdir, Option.isNone_none, if_true]
  | some dir =>
  simp only [inodeOf?, hdir, Option.map_some]
  have hino : h.inodeOf? parent = some (h.inodes dir) := by rw [inodeOf?, hdir, Option.map_some]
  have hlen : h.lookupOneLen env parent c.name =
      if c.name = [] ∨ 47 ∈ c.name ∨ 0 ∈ c.name then .ok (h, .error .eacces)
      else if env.inodePermission (h.inodes dir) .exec then h.lookupHash parent c.name
      else .ok (h, .error .eacces) := by
    simp only [lookupOneLen, lookupNd, hino]
  by_cases hname : c.name = [] ∨ 47 ∈ c.name ∨ 0 ∈ c.name
  · exact .inl ⟨.errPtr, if_pos hname, makeLink_of_error hres hdir (hlen.trans (if_pos hname))⟩
  rw [if_neg hname] at hlen ⊢
  cases hperm : env.inodePermission (h.inodes dir) .exec with
  | false =>
      rw [hperm] at hlen
      exact .inl ⟨.errPtr, rfl, makeLink_of_error hres hdir hlen⟩
  | true =>
  rw [hperm, if_pos rfl] at hlen
  rw [if_neg (by simp)]
  cases hl : h.dcache.dLookup parent c.name with
  | some d =>
      have hlook : h.lookupOneLen env parent c.name = .ok (h.dget d.ptr, .ok d.ptr) := by
        rw [hlen]
        simp only [lookupHash, hino, hl]
      have hd : (h.dget d.ptr).dInode? d.ptr = d.dInode := by
        obtain ⟨-, -, hdn⟩ := Dcache.dLookup_some hl
        rw [dInode?_dget, dInode?, dentryOf?_of_dLookup hs.held.nodup (hdn ▸ hl)]
        rfl
      have hmake := makeLink_of_lookup hres hdir hlook (by rw [dInode?_dget]; exact hdir)
      rw [hd] at hmake
      obtain ⟨henv, hmk⟩ | ⟨henv, hk, hmk⟩ | ⟨henv, hk, r, hmk⟩ := hmake
      · exact .inl ⟨_, if_pos henv, hmk⟩
      · exact .inl ⟨_, by simp [henv, hk], hmk⟩
      · exact .inr ⟨by simp [henv, hk], r, hmk⟩
  | none =>
      obtain ⟨x, hx, hxi⟩ := Ready.exists_dentry hdir
      cases hdead : (h.inodes dir).dead with
      | true =>
          have hlook : h.lookupOneLen env parent c.name = .ok (h, .error .enoent) := by
            rw [hlen]
            simp only [lookupHash, hino, hl, hdead, if_true]
          exact .inl ⟨.errPtr, rfl, makeLink_of_error hres hdir hlook⟩
      | false =>
      cases hisdir : (h.inodes dir).isDir with
      | false =>
          refine .inl ⟨.nullDeref, rfl, ?_⟩
          have hlook : h.lookupOneLen env parent c.name = .error .nullDeref := by
            rw [hlen]
            simp only [lookupHash, hino, hl, hdead, hisdir, Bool.false_eq_true, if_false]
          simp only [makeLink, hres, hdir, wjfsCreateFile, wjfsCreateByName, hlook, bind,
            Except.bind, Option.isNone_some, Bool.false_eq_true, if_false]
      | true =>
      simp only [Bool.false_eq_true, if_false, Bool.true_eq_false]
      by_cases hlong : 255 < c.name.length
      · have hcount : x.2.dCount ≠ 0 := by
          have hpos := hs.held.pos x (Dcache.mem_nodes_of_node? hx)
          omega
        exact .inl ⟨.errPtr, if_pos hlong, makeLink_of_error hres hdir (hlen.trans
          (lookupHash_long hino hisdir hdead hl hs.held.nodup hx hcount hs.nextPtr_not_mem hlong))⟩
      · rw [if_neg hlong]
        have hlook : h.lookupOneLen env parent c.name =
            .ok (h.looked h.dcache parent c.name, .ok h.nextPtr) :=
          hlen.trans (lookupHash_miss hino hisdir hdead hl hs.nextPtr_not_mem
            (Nat.le_of_not_lt hlong))
        have hnone : (h.looked h.dcache parent c.name).dInode? h.nextPtr = none :=
          dInode?_looked_new hs.held.nodup hx hs.nextPtr_not_mem
        have hmake := makeLink_of_lookup hres hdir hlook
          ((dInode?_looked_dir hs.held.nodup hx hs.nextPtr_not_mem).trans hxi)
        rw [hnone] at hmake
        obtain ⟨henv, hmk⟩ | ⟨-, hk, -⟩ | ⟨henv, -, r, hmk⟩ := hmake
        · exact .inl ⟨_, if_pos henv, hmk⟩
        · cases hk
        · exact .inr ⟨by simp [henv], r, hmk⟩

/-- A place where a link can be made: the frame's parent is a directory, the name
is one, and it is neither taken nor, if nobody has asked for it yet, too long or
in a directory that was removed. -/
structure Place (h : Host) (c : Control) (p i : Ptr) : Prop where
  parent : h.resolveParent c.nameParent = some p
  inode : h.dInode? p = some i
  isDir : (h.inodes i).isDir = true
  name : ¬ (c.name = [] ∨ 47 ∈ c.name ∨ 0 ∈ c.name)
  free : ∀ d, h.dcache.dLookup p c.name = some d → d.dInode = none
  alive : h.dcache.dLookup p c.name = none → (h.inodes i).dead = false ∧ c.name.length ≤ 255

/-- What the server needs to make a link. -/
theorem placeFault_eq_none_iff (hs : h.Sane) {newInode : Bool} :
    placeFault (.server newInode) h c = none ↔
      newInode = true ∧ ∃ parent dir, h.Place c parent dir := by
  have hsearch : ∀ i : Inode, i.isDir = true →
      (Env.server newInode).inodePermission i .exec = true := fun i hi => by simp [Env.server, hi]
  unfold placeFault
  constructor
  · intro hnone
    split at hnone
    · cases hnone
    next parent hres =>
    split at hnone
    · cases hnone
    next i hino =>
    obtain ⟨dir, hdir, rfl⟩ := Option.map_eq_some_iff.mp hino
    split at hnone
    · cases hnone
    next hname =>
    split at hnone
    · cases hnone
    split at hnone
    · next d hl =>
        split at hnone
        · cases hnone
        next henv =>
        split at hnone
        · cases hnone
        next hneg =>
        -- a dentry lies in a directory
        have hd := Dcache.mem_nodes_of_node?
          (dentryOf?_of_dLookup hs.held.nodup ((Dcache.dLookup_some hl).2.2 ▸ hl))
        obtain ⟨dir', hdir', hisdir⟩ := hs.dirs parent d hd
        obtain rfl := Option.some.inj (hdir.symm.trans hdir')
        refine ⟨by simpa [Env.server] using henv, parent, dir, hres, hdir, hisdir, hname,
          fun d' hd' => ?_, fun hmiss => ?_⟩
        · rw [← Option.some.inj (hl.symm.trans hd')]
          simpa using hneg
        · rw [hl] at hmiss
          cases hmiss
    · next hl =>
        split at hnone
        · cases hnone
        next hdead =>
        split at hnone
        · cases hnone
        next hisdir =>
        split at hnone
        · cases hnone
        next hlong =>
        split at hnone
        · cases hnone
        next henv =>
        exact ⟨by simpa [Env.server] using henv, parent, dir, hres, hdir, by simpa using hisdir,
          hname, fun d hd => (by rw [hl] at hd; cases hd),
          fun _ => ⟨by simpa using hdead, Nat.le_of_not_lt hlong⟩⟩
  · rintro ⟨rfl, parent, dir, hp⟩
    have hperm := hsearch (h.inodes dir) hp.isDir
    simp only [hp.parent, inodeOf?, hp.inode, Option.map_some, if_neg hp.name, hperm]
    cases hl : h.dcache.dLookup parent c.name with
    | some d => simp [Env.server, hp.free d hl]
    | none =>
        obtain ⟨hdead, hlong⟩ := hp.alive hl
        simp [Env.server, hdead, hp.isDir, Nat.not_lt_of_le hlong]

/-- **How a create frame fails**: for every state that a host can get into and
every frame, the failure is the one that `placeFault` names, or a table
without a free entry, and the frame is handled otherwise. -/
theorem rdmaCreateParsed_error_iff (hs : h.Sane) (env : Env) (c : Control) (ip : Bytes) :
    h.rdmaCreateParsed env c ip = .error e ↔ placeFault env h c = some e ∨
      placeFault env h c = none ∧ tableSize ≤ h.table.live.length ∧ e = .outOfBounds := by
  rw [rdmaCreateParsed_def]
  obtain ⟨e', hf, hmk⟩ | ⟨hf, ⟨g, new, parent⟩, hmk⟩ := makeLink_cases hs env c
  · rw [hf, hmk]
    simp only [bind, Except.bind, Except.error.injEq, Option.some.injEq, reduceCtorEq, false_and,
      or_false]
  · obtain ⟨dir, hm⟩ := makeLink_spec hs hmk
    rw [hf, hmk]
    show g.recordLink new parent c ip = .error e ↔ _
    rw [hm.recordLink]
    by_cases hroom : h.table.live.length < tableSize
    · obtain ⟨t, ht⟩ := Table.exists_insert (f := fun e => e.fill c.name (h.lastIno + 1) c.ino
        (h.number dir) c.inoParent ip) hroom
      rw [ht]
      simp only [bind, Except.bind, reduceCtorEq, false_or, true_and, false_iff, not_and]
      exact fun hfull => absurd hroom (Nat.not_lt_of_le hfull)
    · have hfull : tableSize ≤ h.table.slot :=
        Nat.le_of_not_lt fun hlt => hroom (Table.slot_lt_iff.mp hlt)
      rw [Table.insert_of_full hfull]
      simp only [bind, Except.bind, Except.error.injEq, reduceCtorEq, false_or, true_and]
      exact ⟨fun he => ⟨Nat.le_of_not_lt hroom, he.symm⟩, fun he => he.2.symm⟩

end Host

end Wjfs
