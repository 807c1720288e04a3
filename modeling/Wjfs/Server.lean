import Wjfs.Content

/-!
# Wjfs.Server

One pass through the body of the loop of `wjfs_server`.

The four requests are told apart by four independent `if`s over one buffer,
and the first of them lets `rdma_read` overwrite that buffer with the bytes
of a file.  So a read is followed by whatever handler those bytes name.
-/

namespace Wjfs

/-- The four handlers. -/
inductive Handler where
  | read | write | create | remove
deriving DecidableEq, Repr

/-- What one pass leaves: the state, the handlers that ran, in order, and the
reply that was sent. -/
structure Pass where
  host : Host
  ran : List Handler
  reply : Option Bytes

/-- `if(memcmp(buf, tag, 2) == 0)` around a handler. -/
def Pass.stage (r : Pass) (buf tag : Bytes) (name : Handler) (run : Host → Except Fault Host) :
    Except Fault Pass :=
  if buf.take 2 = tag then
    (run r.host).map fun h => { r with host := h, ran := r.ran ++ [name] }
  else .ok r

/-- The three `if`s after the one for reads, over the same buffer. -/
def Pass.rest (env : Env) (ip buf : Bytes) (r : Pass) : Except Fault Pass := do
  let r ← r.stage buf tagWR .write (·.rdmaWrite buf)
  let r ← r.stage buf tagCR .create (·.rdmaCreate env buf ip)
  r.stage buf tagRM .remove (·.rdmaRemove buf)

/-- The body of the loop, for a request that is not `quit`: `buf` is the C
string that `krecv` put into the zeroed buffer. -/
def Host.serve (env : Env) (stale : Stale) (ip buf : Bytes) (h : Host) : Except Fault Pass :=
  if buf.take 2 = tagRD then do
    let reply ← h.rdmaRead stale buf
    Pass.rest env ip reply ⟨h, [.read], some reply⟩
  else Pass.rest env ip buf ⟨h, [], none⟩

/-- `"quit"`, which ends the loop. -/
def quit : Bytes := [113, 117, 105, 116]

/-- The remove request in a buffer uses an inode that it has freed. -/
def Host.usesFreed (h : Host) (buf : Bytes) : Bool :=
  buf.take 2 == tagRM && (parseControl buf).toOption.any h.removeUsesFreed

/-- The body of the loop, where the use of freed memory counts as a fault. -/
def Host.pass (env : Env) (stale : Stale) (ip buf : Bytes) (h : Host) : Except Fault Pass := do
  let r ← h.serve env stale ip buf
  if h.usesFreed (r.reply.getD buf) then .error .freed else .ok r

namespace Pass

variable {env : Env} {ip buf tag : Bytes} {name : Handler} {r r' : Pass}
  {run : Host → Except Fault Host}

theorem stage_eq (hb : buf.take 2 = tag) :
    r.stage buf tag name run =
      (run r.host).map fun h => { r with host := h, ran := r.ran ++ [name] } := if_pos hb

theorem stage_ne (hb : buf.take 2 ≠ tag) : r.stage buf tag name run = .ok r := if_neg hb

theorem rest_write (hb : buf.take 2 = tagWR) :
    r.rest env ip buf =
      (r.host.rdmaWrite buf).map fun h => { r with host := h, ran := r.ran ++ [.write] } := by
  have hc : buf.take 2 ≠ tagCR := by rw [hb]; decide
  have hm : buf.take 2 ≠ tagRM := by rw [hb]; decide
  simp only [rest, stage_eq hb, stage_ne hc, stage_ne hm]
  cases r.host.rdmaWrite buf <;> rfl

theorem rest_create (hb : buf.take 2 = tagCR) :
    r.rest env ip buf =
      (r.host.rdmaCreate env buf ip).map
        fun h => { r with host := h, ran := r.ran ++ [.create] } := by
  have hw : buf.take 2 ≠ tagWR := by rw [hb]; decide
  have hm : buf.take 2 ≠ tagRM := by rw [hb]; decide
  simp only [rest, stage_eq hb, stage_ne hw, stage_ne hm, bind, Except.bind]
  cases r.host.rdmaCreate env buf ip <;> rfl

theorem rest_remove (hb : buf.take 2 = tagRM) :
    r.rest env ip buf =
      (r.host.rdmaRemove buf).map fun h => { r with host := h, ran := r.ran ++ [.remove] } := by
  have hw : buf.take 2 ≠ tagWR := by rw [hb]; decide
  have hc : buf.take 2 ≠ tagCR := by rw [hb]; decide
  simp only [rest, stage_eq hb, stage_ne hw, stage_ne hc, bind, Except.bind]

/-- A buffer that names none of the three leaves everything as it was. -/
theorem rest_none (hb : buf.take 2 ∉ [tagWR, tagCR, tagRM]) : r.rest env ip buf = .ok r := by
  simp only [List.mem_cons, List.not_mem_nil, or_false, not_or] at hb
  simp only [rest, stage_ne hb.1, stage_ne hb.2.1, stage_ne hb.2.2, bind, Except.bind]

/-- A stage that runs its handler says so. -/
theorem ran_stage (hr : r.stage buf tag name run = .ok r') :
    r'.ran = r.ran ∧ buf.take 2 ≠ tag ∨ r'.ran = r.ran ++ [name] := by
  by_cases hb : buf.take 2 = tag
  · rw [stage_eq hb] at hr
    cases hrun : run r.host with
    | error e => rw [hrun] at hr; cases hr
    | ok h =>
        rw [hrun] at hr
        cases hr
        exact .inr rfl
  · rw [stage_ne hb] at hr
    cases hr
    exact .inl ⟨rfl, hb⟩

/-- Only a buffer that names none of the three runs none of them. -/
theorem not_mem_of_ran_rest (hr : r.rest env ip buf = .ok r') (hran : r'.ran = r.ran) :
    buf.take 2 ∉ [tagWR, tagCR, tagRM] := by
  unfold rest at hr
  cases h₁ : r.stage buf tagWR .write (·.rdmaWrite buf) with
  | error e => rw [h₁] at hr; cases hr
  | ok r₁ =>
      simp only [h₁, bind, Except.bind] at hr
      cases h₂ : r₁.stage buf tagCR .create (·.rdmaCreate env buf ip) with
      | error e => rw [h₂] at hr; cases hr
      | ok r₂ =>
          simp only [h₂] at hr
          have hlen := congrArg List.length hran
          have w := ran_stage h₁
          have c := ran_stage h₂
          have m := ran_stage hr
          grind

/-- The reply is sent before the three. -/
theorem reply_rest (hr : r.rest env ip buf = .ok r') : r'.reply = r.reply := by
  have hstage : ∀ {tag name run} {r r' : Pass}, r.stage buf tag name run = .ok r' →
      r'.reply = r.reply := by
    intro tag name run r r' hr
    unfold stage at hr
    split at hr
    · cases hrun : run r.host with
      | error e => rw [hrun] at hr; cases hr
      | ok h => rw [hrun] at hr; cases hr; rfl
    · cases hr
      rfl
  unfold rest at hr
  cases h₁ : r.stage buf tagWR .write (·.rdmaWrite buf) with
  | error e => rw [h₁] at hr; cases hr
  | ok r₁ =>
      simp only [h₁, bind, Except.bind] at hr
      cases h₂ : r₁.stage buf tagCR .create (·.rdmaCreate env buf ip) with
      | error e => rw [h₂] at hr; cases hr
      | ok r₂ =>
          simp only [h₂] at hr
          rw [hstage hr, hstage h₂, hstage h₁]

end Pass

/-! ## a pass performs only what its request names -/

namespace Host

variable (env : Env) (stale : Stale) (ip buf : Bytes) (h : Host)

/-- A pass performs only the operation its request names: a read changes
nothing, and each of the other three is exactly its own handler. -/
def ServesOnly : Prop :=
  (buf.take 2 = tagRD → ∃ reply, h.serve env stale ip buf = .ok ⟨h, [.read], some reply⟩) ∧
  (buf.take 2 = tagCR →
    h.serve env stale ip buf = (h.rdmaCreate env buf ip).map fun h' => ⟨h', [.create], none⟩) ∧
  (buf.take 2 = tagWR →
    h.serve env stale ip buf = (h.rdmaWrite buf).map fun h' => ⟨h', [.write], none⟩) ∧
  (buf.take 2 = tagRM →
    h.serve env stale ip buf = (h.rdmaRemove buf).map fun h' => ⟨h', [.remove], none⟩)

/-- Nothing is found under the number read, or the bytes that come back stay
inside the stack arrays and do not start with the name of another request. -/
def QuietRead : Prop :=
  ∀ req, parseRead buf = .ok req → ∀ d, h.findDentryByIno h.root req.ino = some d →
    ∃ i reply, d.dInode = some i ∧ getFileMessage stale (h.inodes i) = .ok reply ∧
      reply.take 2 ∉ [tagWR, tagCR, tagRM]

variable {env stale ip buf h}

theorem pass_eq_ok_iff {r : Pass} : h.pass env stale ip buf = .ok r ↔
    h.serve env stale ip buf = .ok r ∧ h.usesFreed (r.reply.getD buf) = false := by
  unfold pass
  cases h.serve env stale ip buf with
  | error e => simp [bind, Except.bind]
  | ok r' =>
      simp only [bind, Except.bind, Except.ok.injEq]
      constructor
      · intro hok
        split at hok
        · cases hok
        · next hfreed =>
            cases hok
            exact ⟨rfl, by simpa using hfreed⟩
      · rintro ⟨rfl, hfreed⟩
        simp [hfreed]

/-- Only a remove request uses what it has freed. -/
theorem usesFreed_of_ne (hb : buf.take 2 ≠ tagRM) : h.usesFreed buf = false := by
  simp [usesFreed, hb]

theorem serve_other (hb : buf.take 2 ≠ tagRD) :
    h.serve env stale ip buf = Pass.rest env ip buf ⟨h, [], none⟩ := if_neg hb

/-- So a write or a create request is as `serve` has it. -/
theorem pass_other (hrd : buf.take 2 ≠ tagRD) (hrm : buf.take 2 ≠ tagRM) :
    h.pass env stale ip buf = h.serve env stale ip buf := by
  unfold pass
  cases hs : h.serve env stale ip buf with
  | error e => rfl
  | ok r =>
      rw [serve_other hrd] at hs
      have hfreed : h.usesFreed (r.reply.getD buf) = false := by
        rw [Pass.reply_rest hs]
        exact usesFreed_of_ne hrm
      simp [bind, Except.bind, hfreed]

/-- A quiet read is a read and nothing else. -/
theorem serve_of_quietRead {req : ReadReq} (hb : buf.take 2 = tagRD)
    (hp : parseRead buf = .ok req) (hq : h.QuietRead stale buf) :
    ∃ reply, h.serve env stale ip buf = .ok ⟨h, [.read], some reply⟩ := by
  unfold serve rdmaRead
  rw [if_pos hb, hp]
  simp only [bind, Except.bind]
  cases hd : h.findDentryByIno h.root req.ino with
  | none =>
      -- the buffer still holds the request itself
      refine ⟨buf, Pass.rest_none ?_⟩
      rw [hb]
      decide
  | some d =>
      obtain ⟨i, reply, hi, hm, hne⟩ := hq req hp d hd
      refine ⟨reply, ?_⟩
      simp only [hi, hm]
      exact Pass.rest_none hne

/-- A read that is followed by no other handler was quiet. -/
theorem quietRead_of_serve (hb : buf.take 2 = tagRD) {reply : Bytes}
    (hs : h.serve env stale ip buf = .ok ⟨h, [.read], some reply⟩) : h.QuietRead stale buf := by
  intro req hp d hd
  unfold serve rdmaRead at hs
  rw [if_pos hb, hp] at hs
  simp only [bind, Except.bind, hd] at hs
  cases hi : d.dInode with
  | none => simp only [hi] at hs; cases hs
  | some i =>
      simp only [hi] at hs
      cases hm : getFileMessage stale (h.inodes i) with
      | error e => simp only [hm] at hs; cases hs
      | ok m =>
          simp only [hm] at hs
          exact ⟨i, m, rfl, hm, Pass.not_mem_of_ran_rest hs rfl⟩

/-- **Dispatch**: for every state, every content of the stack and every frame
that the parser accepts if it is a read, the pass performs only what the
frame names if and only if a read is quiet.  Nothing but the bytes of the
file decides that. -/
theorem servesOnly_iff_quietRead (hacc : buf.take 2 = tagRD → ∃ req, parseRead buf = .ok req) :
    h.ServesOnly env stale ip buf ↔ (buf.take 2 = tagRD → h.QuietRead stale buf) := by
  constructor
  · intro hs hb
    obtain ⟨reply, hr⟩ := hs.1 hb
    exact quietRead_of_serve hb hr
  · intro hq
    refine ⟨fun hb => ?_, fun hb => ?_, fun hb => ?_, fun hb => ?_⟩
    · obtain ⟨req, hp⟩ := hacc hb
      exact serve_of_quietRead hb hp (hq hb)
    · rw [serve_other (by rw [hb]; decide), Pass.rest_create hb]
      rfl
    · rw [serve_other (by rw [hb]; decide), Pass.rest_write hb]
      rfl
    · rw [serve_other (by rw [hb]; decide), Pass.rest_remove hb]
      rfl

/-! ## what the last three handlers are handed -/

/-- The buffer as the last three `if`s of a pass find it. -/
def handed (h : Host) (stale : Stale) (buf : Bytes) : Except Fault Bytes :=
  if buf.take 2 = tagRD then h.rdmaRead stale buf else .ok buf

/-- The pass so far, when they start. -/
def begun (h : Host) (buf b : Bytes) : Pass :=
  if buf.take 2 = tagRD then ⟨h, [.read], some b⟩ else ⟨h, [], none⟩

@[simp] theorem host_begun (h : Host) (buf b : Bytes) : (h.begun buf b).host = h := by
  unfold begun
  split <;> rfl

/-- A pass is the read, if there is one, and the three handlers on what it
leaves in the buffer. -/
theorem serve_eq : h.serve env stale ip buf =
    h.handed stale buf >>= fun b => Pass.rest env ip b (h.begun buf b) := by
  unfold serve handed begun
  split <;> rfl

/-- What is judged for the use of freed memory is what they are handed. -/
theorem reply_getD_of_serve {r : Pass} {b : Bytes} (hb : h.handed stale buf = .ok b)
    (hr : Pass.rest env ip b (h.begun buf b) = .ok r) : r.reply.getD buf = b := by
  rw [Pass.reply_rest hr]
  unfold begun
  unfold handed at hb
  by_cases hrd : buf.take 2 = tagRD
  · rw [if_pos hrd]
    rfl
  · rw [if_neg hrd] at hb ⊢
    cases hb
    rfl

theorem exists_pass_ok_iff : (∃ r, h.pass env stale ip buf = .ok r) ↔
    ∃ b, h.handed stale buf = .ok b ∧ (∃ r, Pass.rest env ip b (h.begun buf b) = .ok r) ∧
      h.usesFreed b = false := by
  simp only [pass_eq_ok_iff, serve_eq]
  cases hb : h.handed stale buf with
  | error e => simp [bind, Except.bind]
  | ok b =>
      simp only [bind, Except.bind, Except.ok.injEq, exists_eq_left']
      constructor
      · rintro ⟨r, hr, hfreed⟩
        exact ⟨⟨r, hr⟩, reply_getD_of_serve hb hr ▸ hfreed⟩
      · rintro ⟨⟨r, hr⟩, hfreed⟩
        exact ⟨r, hr, (reply_getD_of_serve hb hr).symm ▸ hfreed⟩

end Host

/-! ## a file that holds a request -/

/-- A host whose only file, `f` with inode number 2, holds `contents`. -/
def holding (contents : Bytes) : Host :=
  let m := Host.mounted 0 0o755 0 Table.initial
  { m with
    dcache := .cons
      { ptr := 0, dName := Host.rootName, dInode := some 1, dCount := 3, dUnhashed := true,
        dOp := false, dMounted := false }
      (.cons
        { ptr := 2, dName := [102], dInode := some 3, dCount := 1, dUnhashed := false,
          dOp := true, dMounted := false } .nil .nil) .nil
    inodes := fun j =>
      if j = 3 then putFileMessage contents (Inode.fresh 2 ⟨.reg, 0o644⟩) else m.inodes j
    nextPtr := 4
    lastIno := 2 }

/-- `"CR 7 x 1 / 0000"`, the request to make a link `x` in the root. -/
def createX : Bytes := wjfsClientCreate 7 [120] 1 Host.rootName false

/-- `"RD 2 f 1 /"`, the request to read `f`. -/
def readF : Bytes := readRequest 2 [102] 1 Host.rootName

/-- A stack full of zeros. -/
def zeroStack : Stale := ⟨fun _ => 0, fun _ => 0⟩

/-- A read of a file that holds `"hi"` serves only the read. -/
theorem servesOnly_iff_quietRead_hi :
    parseRead readF = .ok ⟨2, [102], 1, Host.rootName⟩ ∧
      (holding [104, 105]).ServesOnly (Env.server true) zeroStack [] readF := by
  have hp : parseRead readF = .ok ⟨2, [102], 1, Host.rootName⟩ := by decide
  refine ⟨hp, (Host.servesOnly_iff_quietRead fun _ => ⟨_, hp⟩).mpr fun _ req hreq d hd => ?_⟩
  rw [hp] at hreq
  rw [← Except.ok.inj hreq] at hd
  have hi : d.dInode = some 3 := by
    have := congrArg (Option.map Dentry.dInode) hd
    exact (Option.some.inj (this.symm.trans (by decide)))
  exact ⟨3, [104, 105], hi, by decide +kernel, by decide⟩

/-- Reading a file that holds a create request makes the link it names. -/
theorem read_creates_link :
    ((holding createX).serve (Env.server true) zeroStack [] readF).toOption.map
        (fun r => (r.ran, r.host.dcache.nodes.map (·.2.dName))) =
      some ([.read, .create], [Host.rootName, [120], [102]]) ∧
    (holding createX).dcache.nodes.map (·.2.dName) = [Host.rootName, [102]] := by
  decide +kernel

end Wjfs
