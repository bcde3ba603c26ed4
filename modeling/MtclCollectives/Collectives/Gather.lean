-- SUMMARY: GatherGeneric::sendrecv: each rank sends its share to the root, which receives them in rank order at the running displacements; gathering what a scatter delivered rebuilds the scattered buffer.
import MtclCollectives.Collectives.Scatter

/-!
# Gather

`GatherGeneric::sendrecv`: each non-root sends its share, and the root receives the shares in
rank order at their displacements (`recvLoop`, shared with all-gather); with non-empty shares a
gather runs from its start to its finish with every handle as it was.
-/

open CollM

namespace GatherGeneric

/-- The root's receive loop of gather and all-gather from iteration `i`, `k` left, at `displ`:
`some r` returns a receive's result `r ≤ 0`. -/
def recvLoop (recvcount datasize rcount : Nat) :
    Nat → Nat → Nat → Option Buf → CollM (Option Int × Option Buf)
  | _, 0, _, recvbuff => pure (none, recvbuff)
  | i, k + 1, displ, recvbuff => do
    let chunksize := if rcount ≠ 0 ∧ i + 1 < rcount then recvcount + datasize else recvcount
    let (r, recvbuff) ← receiveFromHandle i recvbuff displ chunksize
    if r ≤ 0 then
      return (some r, recvbuff)
    recvLoop recvcount datasize rcount (i + 1) k (displ + chunksize) recvbuff

/-- `GatherGeneric::sendrecv(sendbuff, sendsize, recvbuff, recvsize, datasize)`: the return
value, and the receive buffer after the call. -/
def sendrecv (cfg : Config) (sendbuff : Option Buf) (sendsize : Nat) (recvbuff : Option Buf)
    (recvsize datasize : Nat) : CollM (Int × Option Buf) := do
  if sendbuff.isNone then
    setErrno EFAULT
    return (-1, recvbuff)
  if (← sizeMod recvsize datasize) ≠ 0 then
    setErrno EINVAL
    return (-1, recvbuff)
  let datacount := recvsize / datasize
  let recvcount := datacount / cfg.nparticipants * datasize
  let rcount := datacount % cfg.nparticipants
  if cfg.root then
    let selfrecvcount := recvcount + if rcount > 0 then datasize else 0
    if sendsize < selfrecvcount then
      setErrno EINVAL
      return (-1, recvbuff)
    if recvbuff.isNone then
      setErrno EFAULT
      return (-1, recvbuff)
    let recvbuff ← writePtr recvbuff 0 (← readPtr sendbuff 0 selfrecvcount)
    match ← recvLoop recvcount datasize rcount 0 (cfg.nparticipants - 1) selfrecvcount recvbuff with
    | (some r, recvbuff) => return (r, recvbuff)
    | (none, recvbuff) => return (selfrecvcount, recvbuff)
  else
    let chunksize :=
      if rcount ≠ 0 ∧ cfg.rank < toInt32 rcount then recvcount + datasize else recvcount
    if chunksize > sendsize then
      setErrno EINVAL
      return (-1, recvbuff)
    let h ← participantsAt 0
    if (← StateT.lift (h.send (← readPtr sendbuff 0 chunksize))) < 0 then
      setErrno ECONNRESET
      return (-1, recvbuff)
    return (chunksize, recvbuff)

/-- `GatherGeneric::probe`: not supported. -/
def probe (size : Nat) (_blocking : Bool) : CollM (Int × Nat) :=
  (·, size) <$> unsupported

/-- `GatherGeneric::send`: not supported. -/
def send (_buff : Option Buf) (_size : Nat) : CollM Int :=
  unsupported

/-- `GatherGeneric::receive`: not supported. -/
def receive (buff : Option Buf) (_size : Nat) : CollM (Int × Option Buf) :=
  (·, buff) <$> unsupported

/-- `GatherGeneric::close(close_wr, close_rd)`: every rank write-closes all its
handles. -/
def close : CollM Unit :=
  closeWhen true

theorem recvLoop_blocking (recvcount datasize rcount i k displ : Nat) (recvbuff : Option Buf) :
    CollM.Blocking (recvLoop recvcount datasize rcount i k displ recvbuff) := by
  induction k generalizing i displ recvbuff with
  | zero => exact Blocking.pure _
  | succ k ih =>
    refine Blocking.bind (receiveFromHandle_blocking _ _ _ _) fun _ => ?_
    dsimp only
    split
    · exact Blocking.pure _
    · exact Blocking.bind (Blocking.pure _) fun _ => ih _ _ _

theorem sendrecv_blocking (cfg : Config) (sendbuff : Option Buf) (sendsize : Nat)
    (recvbuff : Option Buf) (recvsize datasize : Nat) :
    CollM.Blocking (sendrecv cfg sendbuff sendsize recvbuff recvsize datasize) := by
  unfold sendrecv
  simp only [pure_bind]
  exact .ite (.fail _ _) (.bind (.sizeMod _ _) fun _ => .ite (.fail _ _) (.ite
    (.ite (.fail _ _) (.ite (.fail _ _) (.bind (.readPtr _ _ _) fun _ => .bind (.writePtr _ _ _)
      fun _ => .bind (recvLoop_blocking _ _ _ _ _ _ _) fun
        | (some _, _) => .pure _
        | (none, _) => .pure _)))
    (.ite (.fail _ _) (.bind (.participantsAt 0) fun _ => .bind (.readPtr _ _ _) fun _ =>
      .bind (.send _ _) fun _ => .ite (.fail _ _) (.pure _)))))

-- ---------------------------------------------------------------------------
-- The root's receive loop
-- ---------------------------------------------------------------------------

section Loop

variable {n ds count : Nat} {s : State} {f : Nat → Bytes}

/-- From iteration `i` on, the loop takes the frame `f (j + 1)` of each rank `j + 1` on
`participants[j]` and stores it at `displ (j + 1)`, when each frame is a non-empty share. -/
theorem recvLoop_runs (rb : Buf) (hf : ∀ r, f r ≠ [])
    (hlen : ∀ r, (f r).length = chunk n ds count r) (i k : Nat) (hk : i + k < n)
    (hs : ∀ j, i ≤ j → j < i + k → s.participants[j]? = some (.fresh (j + 1))) :
    Runs 0 (recvLoop (count / n * ds) ds (count % n) i k (displ n ds count (i + 1)) (some rb)) s
      (Chans.star (fun _ => []) (Chans.span (i + 1) n f))
      (none, some (rb.write (displ n ds count (i + 1)) ((List.range' (i + 1) k).map f).flatten))
      s (Chans.star (fun _ => []) (Chans.span (i + 1 + k) n f)) := by
  induction k generalizing i rb with
  | zero => simpa using Runs.pure' (p := 0) _ _ _
  | succ k ih =>
    have hc : Chans.star (fun _ => []) (Chans.span (i + 1) n f) ((Handle.fresh (i + 1)).peer, 0) =
        [.frame (f (i + 1))] := by
      rw [Handle.fresh_peer, Chans.star_up (by omega), Chans.span_of_mem le_rfl (by omega)]
    have hrecv := receiveFromHandle_frame (p := 0) rb (displ n ds count (i + 1))
      (hs i le_rfl (by omega)) (Handle.fresh_idle _) hc (hf _) (hlen _).le
    rw [Handle.fresh_peer, Chans.pop_star_up (by omega), Chans.span_pop] at hrecv
    have hrest := ih (rb.write (displ n ds count (i + 1)) (f (i + 1))) (i + 1) (by omega)
      fun j h₁ h₂ => hs j (by omega) (by omega)
    simp only [recvLoop, chunk_succ_eq]
    refine Runs.bind hrecv ?_
    simpa [← hlen, hf (i + 1), List.range'_succ, Buf.write_append, displ_succ,
      show i + 1 + (k + 1) = i + 1 + 1 + k by omega] using hrest

end Loop

/-- A non-root sends the first `chunk rank` bytes of its buffer to the root and returns their
count, when the send succeeds. -/
theorem sendrecv_nonroot_emits (g : Team) {r : Nat} (hr : 0 < r) (b : Buf)
    (recvbuff : Option Buf) {sendsize R ds : Nat} (hds : 0 < ds) (hR : R % ds = 0)
    (hss : chunk g.n ds (R / ds) r ≤ sendsize) :
    Proc.Emits ((sendrecv (g.config r) (some b) sendsize recvbuff R ds).run (g.state r))
      [(0, b.slice 0 (chunk g.n ds (R / ds) r))]
      (((chunk g.n ds (R / ds) r : Nat), recvbuff), g.state r) := by
  have hch := @chunk_rank_eq g.n ds (R / ds) r g.le_int g.zero_lt
  simp only [sendrecv, Team.config_rank, Team.config_nparticipants, Team.config_root, hch]
  simp only [Option.isNone_some, Bool.false_eq_true, ↓reduceIte, ne_eq, Int.reduceNeg,
    bind_pure_comp, beq_iff_eq, hr.ne', gt_iff_lt, Nat.not_lt.mpr hss, Handle.send, map_pure,
    pure_bind, ite_not, StateT.run_bind, run_sizeMod _ hds, hR, Proc.done_bind,
    run_participantsAt (s := g.state r) (g.participants_getElem?_zero hr.ne'), run_readPtr,
    StateT.run_lift, Proc.pure_eq, Proc.send_bind, Handle.fresh_peer]
  exact .send fun x hx => by simpa [Int.not_lt.mpr hx] using Proc.Emits.done _

/-- The whole loop at the root: after its own share `own` at the start of its buffer, the root
stores the non-empty shares `f r` of the other ranks, in rank order. -/
theorem recvLoop_root (g : Team) (rb : Buf) (own : Bytes) {ds count : Nat} {f : Nat → Bytes}
    (hown : own.length = chunk g.n ds count 0) (hf : ∀ r, f r ≠ [])
    (hlen : ∀ r, (f r).length = chunk g.n ds count r) :
    Runs 0 (recvLoop (count / g.n * ds) ds (count % g.n) 0 (g.n - 1) (chunk g.n ds count 0)
        (some (rb.write 0 own))) (g.state 0)
      (Chans.star (fun _ => []) (Chans.span 1 g.n f))
      (none, some (rb.write 0 (own ++ ((List.range' 1 (g.n - 1)).map f).flatten))) (g.state 0)
      (Chans.star (fun _ => []) fun _ => []) := by
  have hloop := recvLoop_runs (s := g.state 0) (rb.write 0 own) hf hlen 0 (g.n - 1)
    (by have := g.one_le; omega) fun j _ hj => g.participants_root_getElem? (i := j) (by omega)
  rw [Nat.zero_add, displ_one, Nat.add_sub_cancel' g.one_le, Chans.span_empty le_rfl] at hloop
  rwa [← Buf.write_append, Nat.zero_add, hown]

/-- The root copies its own share and takes the non-empty share `f r` of each other rank, in
rank order, storing them one after another. -/
theorem sendrecv_root_runs (g : Team) (b rb : Buf) {sendsize R ds : Nat} (hds : 0 < ds)
    (hR : R % ds = 0) (hss : chunk g.n ds (R / ds) 0 ≤ sendsize) {f : Nat → Bytes}
    (hf : ∀ r, f r ≠ []) (hlen : ∀ r, (f r).length = chunk g.n ds (R / ds) r) :
    Runs 0 (sendrecv (g.config 0) (some b) sendsize (some rb) R ds) (g.state 0)
      (Chans.star (fun _ => []) (Chans.span 1 g.n f))
      ((chunk g.n ds (R / ds) 0 : Nat), some (rb.write 0
        (b.slice 0 (chunk g.n ds (R / ds) 0) ++ ((List.range' 1 (g.n - 1)).map f).flatten)))
      (g.state 0) (fun _ => []) := by
  have hloop := recvLoop_root g rb _ (Buf.length_slice b 0 _) hf hlen
  rw [Chans.star_empty] at hloop
  unfold Runs
  simp only [sendrecv, Team.config_nparticipants, Team.config_root, chunk_zero_eq]
  simp only [Option.isNone_some, Bool.false_eq_true, ↓reduceIte, ne_eq, Int.reduceNeg,
    bind_pure_comp, beq_self_eq_true, Nat.not_lt.mpr hss, pure_bind, ite_not, StateT.run_bind,
    run_sizeMod _ hds, hR, Proc.done_bind, run_readPtr, run_writePtr]
  exact Runs.run_bind hloop Proc.Run.refl

-- ---------------------------------------------------------------------------
-- A round of the team
-- ---------------------------------------------------------------------------

/-- Every rank gathers `recvsize / datasize` elements of `datasize > 0` bytes, at least one per
rank, from its buffer `bufs r` with room for its share; the root has a receive buffer. -/
structure Admits (g : Team) (calls : Nat → Call) (bufs : Nat → Buf) (R ds : Nat) : Prop where
  datasize_pos : 0 < ds
  dvd : R % ds = 0
  le_count : g.n ≤ R / ds
  sendbuff : ∀ r < g.n, (calls r).sendbuff = some (bufs r)
  sendsize : ∀ r < g.n, chunk g.n ds (R / ds) r ≤ (calls r).sendsize
  recvsize : ∀ r < g.n, (calls r).recvsize = R
  datasize : ∀ r < g.n, (calls r).datasize = ds
  recvbuff : (calls 0).recvbuff.isSome

/-- Team rank `r`'s call. -/
def code (g : Team) (calls : Nat → Call) (r : Nat) : CollM (Int × Option Buf) :=
  sendrecv (g.config r) (calls r).sendbuff (calls r).sendsize (calls r).recvbuff
    (calls r).recvsize (calls r).datasize

theorem code_blocking (g : Team) (calls : Nat → Call) (r : Nat) :
    CollM.Blocking (code g calls r) :=
  sendrecv_blocking _ _ _ _ _ _

/-- The contribution of rank `r`: the first `chunk r` bytes of its buffer. -/
def part (g : Team) (bufs : Nat → Buf) (R ds r : Nat) : Bytes :=
  (bufs r).slice 0 (chunk g.n ds (R / ds) r)

/-- The contributions of all ranks, in rank order. -/
def gathered (g : Team) (bufs : Nat → Buf) (R ds : Nat) : Bytes :=
  ((List.range g.n).map (part g bufs R ds)).flatten

/-- What team rank `r` returns: the size of its share, and, at the root, the receive buffer
with the contributions at its start. -/
def result (g : Team) (calls : Nat → Call) (bufs : Nat → Buf) (R ds r : Nat) : Int × Option Buf :=
  (chunk g.n ds (R / ds) r,
    if r = 0 then (calls 0).recvbuff.map (·.write 0 (gathered g bufs R ds)) else (calls r).recvbuff)

variable {g : Team} {calls : Nat → Call} {bufs : Nat → Buf} {R ds : Nat} {β : Type}

theorem part_ne_nil (hds : 0 < ds) (hle : g.n ≤ R / ds) (r : Nat) : part g bufs R ds r ≠ [] := by
  simpa [part, ← List.length_pos] using chunk_pos g.zero_lt hle hds r

theorem gathered_eq : gathered g bufs R ds =
    part g bufs R ds 0 ++ ((List.range' 1 (g.n - 1)).map (part g bufs R ds)).flatten := by
  rw [gathered, List.range_eq_range', ← Nat.sub_add_cancel g.one_le, List.range'_succ]
  simp

theorem gathered_ne_nil (hds : 0 < ds) (hle : g.n ≤ R / ds) : gathered g bufs R ds ≠ [] := by
  rw [gathered_eq]
  exact List.append_ne_nil_of_left_ne_nil (part_ne_nil hds hle 0) _

theorem length_flatten_parts (k : Nat) :
    ((List.range k).map (part g bufs R ds)).flatten.length = displ g.n ds (R / ds) k := by
  induction k with
  | zero => rfl
  | succ k ih => simp [List.range_succ, ih, displ_succ, part]

theorem length_gathered (hR : R % ds = 0) : (gathered g bufs R ds).length = R := by
  rw [gathered, length_flatten_parts, displ_self g.zero_lt,
    Nat.div_mul_cancel (Nat.dvd_of_mod_eq_zero hR)]

theorem round (h : Admits g calls bufs R ds) (K : Nat → (Int × Option Buf) × State → Proc β) :
    Net.Reach (g.start (code g calls) K) (g.finish (result g calls bufs R ds) K) := by
  obtain ⟨rb, hrb⟩ := Option.isSome_iff_exists.mp h.recvbuff
  refine g.reach_finish_two_phase (fun r => K r (result g calls bufs R ds r, g.state r))
    (fun r => Chans.star (fun _ => []) (Chans.span 1 r (part g bufs R ds))) (fun _ => fun _ => [])
    (by dsimp only; rw [Chans.span_empty le_rfl, Chans.star_empty]) rfl (fun r hr hrn => ?_) ?_
    fun _ _ _ => Proc.Run.refl
  · have hsend := Runs.of_emits (p := r) (sendrecv_nonroot_emits g hr (bufs r) (calls r).recvbuff
      h.datasize_pos h.dvd (h.sendsize r hrn))
      (Chans.star (fun _ => []) (Chans.span 1 r (part g bufs R ds)))
    rw [Chans.sendAll_star_up hr.ne', show (bufs r).slice 0 _ = part g bufs R ds r from rfl,
      Chans.span_push hr] at hsend
    simpa [code, result, h.sendbuff r hrn, h.recvsize r hrn, h.datasize r hrn, hr.ne'] using
      hsend.cont (K r)
  · have hroot := sendrecv_root_runs g (bufs 0) rb h.datasize_pos h.dvd (h.sendsize 0 g.zero_lt)
      (f := part g bufs R ds) (part_ne_nil h.datasize_pos h.le_count) (fun r => by simp [part])
    simpa [code, result, h.sendbuff 0 g.zero_lt, h.recvsize 0 g.zero_lt, h.datasize 0 g.zero_lt,
      hrb, gathered_eq] using hroot.cont (K 0)

/-- A gather leaves the root all contributions in rank order in every interleaving, and so inverts
a scatter. -/
theorem sendrecv_gathers (g : Team) (calls : Nat → Call) (bufs : Nat → Buf) (R ds : Nat)
    (h : Admits g calls bufs R ds) :
    (∀ r, 0 < r → r < g.n → Proc.Emits ((code g calls r).run (g.state r))
        [(0, part g bufs R ds r)] (((chunk g.n ds (R / ds) r : Nat), (calls r).recvbuff), g.state r)) ∧
      (∀ r < g.n, (g.launch (code g calls)).Determined r (result g calls bufs R ds r, g.state r)) ∧
      ∀ B : Buf, (∀ r < g.n, part g bufs R ds r = ScatterGeneric.share g.n ds (R / ds) B r) →
        gathered g bufs R ds = B.slice 0 R := by
  refine ⟨fun r hr hrn => ?_, fun r hr => ?_, fun B hB => ?_⟩
  · simpa [code, part, h.sendbuff r hrn, h.recvsize r hrn, h.datasize r hrn] using
      sendrecv_nonroot_emits g hr (bufs r) (calls r).recvbuff h.datasize_pos h.dvd (h.sendsize r hrn)
  · exact Team.determined_of_finish (code_blocking g calls) (round h fun _ => .done) hr
  · rw [gathered, List.map_congr_left fun r hr => hB r (List.mem_range.mp hr),
      ScatterGeneric.flatten_shares, displ_self g.zero_lt,
      Nat.div_mul_cancel (Nat.dvd_of_mod_eq_zero h.dvd)]

/-- Two ranks gathering one byte each. -/
theorem sendrecv_gathers_two_ranks :
    let g : Team := ⟨2, by decide, by decide⟩
    let calls : Nat → Call := fun _ => ⟨some fun _ => 7, 1, some fun _ => 0, 2, 1⟩
    let bufs : Nat → Buf := fun _ _ => 7
    Admits g calls bufs 2 1 ∧
      ((∀ r, 0 < r → r < g.n → Proc.Emits ((code g calls r).run (g.state r))
          [(0, part g bufs 2 1 r)] (((chunk g.n 1 (2 / 1) r : Nat), (calls r).recvbuff), g.state r)) ∧
        (∀ r < g.n, (g.launch (code g calls)).Determined r (result g calls bufs 2 1 r, g.state r)) ∧
        ∀ B : Buf, (∀ r < g.n, part g bufs 2 1 r = ScatterGeneric.share g.n 1 (2 / 1) B r) →
          gathered g bufs 2 1 = B.slice 0 2) :=
  have h : Admits ⟨2, by decide, by decide⟩ (fun _ => ⟨some fun _ => 7, 1, some fun _ => 0, 2, 1⟩)
      (fun _ _ => 7) 2 1 :=
    ⟨by decide, by decide, by decide, fun _ _ => rfl, fun _ _ => by simp [chunk],
      fun _ _ => rfl, fun _ _ => rfl, rfl⟩
  ⟨h, sendrecv_gathers _ _ _ _ _ h⟩

end GatherGeneric
