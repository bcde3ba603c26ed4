-- SUMMARY: AllGatherGeneric::sendrecv: a gather at the root followed by the root sending the assembled buffer back to every rank; every rank ends with the same buffer.
import MtclCollectives.Collectives.Gather

/-!
# AllGather

`AllGatherGeneric::sendrecv` is a gather after which the root sends its receive buffer to every
other rank; with non-empty shares every rank ends with all contributions in rank order.
-/

open CollM GatherGeneric

namespace AllGatherGeneric

/-- `AllGatherGeneric::sendrecv(sendbuff, sendsize, recvbuff, recvsize, datasize)`: the return
value, and the receive buffer after the call. -/
def sendrecv (cfg : Config) (sendbuff : Option Buf) (sendsize : Nat) (recvbuff : Option Buf)
    (recvsize datasize : Nat) : CollM (Int × Option Buf) := do
  if sendbuff.isNone then
    setErrno EFAULT
    return (-1, recvbuff)
  if recvbuff.isNone then
    setErrno EFAULT
    return (-1, recvbuff)
  if (← sizeMod recvsize datasize) ≠ 0 then
    setErrno EINVAL
    return (-1, recvbuff)
  let datacount := recvsize / datasize
  let recvcount := datacount / cfg.nparticipants * datasize
  let rcount := datacount % cfg.nparticipants
  if cfg.root then
    let selfrecvcount := recvcount + if rcount > 0 then datasize else 0
    if sendsize < selfrecvcount then
      setErrno EINVAL
      return (-1, recvbuff)
    let recvbuff ← writePtr recvbuff 0 (← readPtr sendbuff 0 selfrecvcount)
    match ← recvLoop recvcount datasize rcount 0 (cfg.nparticipants - 1) selfrecvcount recvbuff with
    | (some r, recvbuff) => return (r, recvbuff)
    | (none, recvbuff) =>
      if !(← sendEach recvbuff recvsize (← get).participants) then
        return (-1, recvbuff)
      return (selfrecvcount, recvbuff)
  else
    let chunksize :=
      if rcount ≠ 0 ∧ cfg.rank < toInt32 rcount then recvcount + datasize else recvcount
    if chunksize > sendsize then
      setErrno EINVAL
      return (-1, recvbuff)
    let h ← participantsAt 0
    if (← StateT.lift (h.send (← readPtr sendbuff 0 chunksize))) < 0 then
      setErrno ECONNRESET
      return (-1, recvbuff)
    let recvbuff ← receiveAll recvbuff recvsize
    return (chunksize, recvbuff)

/-- `AllGatherGeneric::probe`: not supported. -/
def probe (size : Nat) (_blocking : Bool) : CollM (Int × Nat) :=
  (·, size) <$> unsupported

/-- `AllGatherGeneric::send`: not supported. -/
def send (_buff : Option Buf) (_size : Nat) : CollM Int :=
  unsupported

/-- `AllGatherGeneric::receive`: not supported. -/
def receive (buff : Option Buf) (_size : Nat) : CollM (Int × Option Buf) :=
  (·, buff) <$> unsupported

/-- `AllGatherGeneric::close(close_wr, close_rd)`: every rank write-closes all its
handles. -/
def close : CollM Unit :=
  closeWhen true

theorem sendrecv_blocking (cfg : Config) (sendbuff : Option Buf) (sendsize : Nat)
    (recvbuff : Option Buf) (recvsize datasize : Nat) :
    CollM.Blocking (sendrecv cfg sendbuff sendsize recvbuff recvsize datasize) := by
  unfold sendrecv
  simp only [pure_bind]
  exact .ite (.fail _ _) (.ite (.fail _ _) (.bind (.sizeMod _ _) fun _ => .ite (.fail _ _) (.ite
    (.ite (.fail _ _) (.bind (.readPtr _ _ _) fun _ => .bind (.writePtr _ _ _) fun _ =>
      .bind (GatherGeneric.recvLoop_blocking _ _ _ _ _ _ _) fun
        | (some _, _) => .pure _
        | (none, _) => .bind .get fun _ => .bind (sendEach_blocking _ _ _) fun _ =>
          .ite (.pure _) (.pure _)))
    (.ite (.fail _ _) (.bind (.participantsAt 0) fun _ => .bind (.readPtr _ _ _) fun _ =>
      .bind (.send _ _) fun _ => .ite (.fail _ _) (.bind (receiveAll_blocking _ _) fun _ =>
        .pure _))))))

-- ---------------------------------------------------------------------------
-- The steps of each rank
-- ---------------------------------------------------------------------------

/-- A non-root's first step sends the first `chunk rank` bytes of its buffer to the root. -/
theorem sendrecv_nonroot_next (g : Team) {r : Nat} (hr : 0 < r) (b rb : Buf)
    {sendsize R ds : Nat} (hds : 0 < ds) (hR : R % ds = 0)
    (hss : chunk g.n ds (R / ds) r ≤ sendsize) (c : Chans) :
    ((sendrecv (g.config r) (some b) sendsize (some rb) R ds).run (g.state r)).next r c =
      some ((receiveRest (some rb) R (chunk g.n ds (R / ds) r)).run (g.state r),
        (Act.push (r, 0) (.frame (b.slice 0 (chunk g.n ds (R / ds) r)))).apply c) := by
  have hch := @chunk_rank_eq g.n ds (R / ds) r g.le_int g.zero_lt
  simp only [sendrecv, Team.config_rank, Team.config_nparticipants, Team.config_root, hch]
  simp only [Option.isNone_some, Bool.false_eq_true, ↓reduceIte, ne_eq, Int.reduceNeg,
    bind_pure_comp, beq_iff_eq, hr.ne', gt_iff_lt, Nat.not_lt.mpr hss, Handle.send, pure_bind,
    ite_not, StateT.run_bind, run_sizeMod _ hds, hR, Proc.done_bind,
    run_participantsAt (s := g.state r) (g.participants_getElem?_zero hr.ne'), run_readPtr,
    StateT.run_lift, Proc.pure_eq, Proc.send_bind, Handle.fresh_peer, Proc.next_send,
    Buf.length_slice, show ¬((chunk g.n ds (R / ds) r : Nat) : Int) < 0 by omega, StateT.run_map,
    receiveRest]

/-- The root gathers the non-empty shares `f r` after its own, then sends the assembled buffer
`A` to every rank. -/
theorem sendrecv_root_runs (g : Team) (b rb : Buf) {sendsize R ds : Nat} (hds : 0 < ds)
    (hR : R % ds = 0) (hss : chunk g.n ds (R / ds) 0 ≤ sendsize) {f : Nat → Bytes}
    (hf : ∀ r, f r ≠ []) (hlen : ∀ r, (f r).length = chunk g.n ds (R / ds) r) {A : Bytes}
    (hA : A = b.slice 0 (chunk g.n ds (R / ds) 0) ++ ((List.range' 1 (g.n - 1)).map f).flatten)
    (hAR : A.length = R) :
    Runs 0 (sendrecv (g.config 0) (some b) sendsize (some rb) R ds) (g.state 0)
      (Chans.star (fun _ => []) (Chans.span 1 g.n f))
      ((chunk g.n ds (R / ds) 0 : Nat), some (rb.write 0 A)) (g.state 0)
      (Chans.star (Chans.span 1 g.n fun _ => A) fun _ => []) := by
  have hloop := recvLoop_root g rb _ (Buf.length_slice b 0 _) hf hlen
  have hsend := Runs.of_emits (p := 0) (sendEach_emits (rb.write 0 A) R (g.state 0)
    (g.participants 0)) (Chans.star (fun _ => []) fun _ => [])
  have hl : (g.participants 0).map (fun h => (h.peer, (rb.write 0 A).slice 0 R)) =
      (List.range (g.n - 1)).map fun i => (i + 1, A) := by
    simp [Team.participants, ← hAR, Function.comp_def]
  rw [hl, Chans.sendAll_star_root (f := fun _ => A), Nat.sub_add_cancel g.one_le] at hsend
  rw [← hA] at hloop
  unfold Runs
  simp only [sendrecv, Team.config_nparticipants, Team.config_root, chunk_zero_eq]
  simp only [Option.isNone_some, Bool.false_eq_true, ↓reduceIte, ne_eq, Int.reduceNeg,
    bind_pure_comp, beq_self_eq_true, Nat.not_lt.mpr hss, Bool.not_eq_eq_eq_not, Bool.not_true,
    map_pure, pure_bind, ite_not, StateT.run_bind, run_sizeMod _ hds, hR, Proc.done_bind,
    run_readPtr, run_writePtr]
  refine Runs.run_bind hloop ?_
  simp only [StateT.run_bind, StateT.run_get, Proc.pure_eq, Proc.done_bind,
    Team.state_participants]
  exact Runs.run_bind hsend Proc.Run.refl

/-- What is left of a non-root's call takes the root's buffer `A` into its receive buffer. -/
theorem receiveRest_fresh (g : Team) {r : Nat} (hr : r ≠ 0) (rb : Buf) (R ret : Nat)
    {A : Bytes} {c : Chans} {l : List Msg} (hc : c (0, r) = .frame A :: l) (hA : A ≠ [])
    (hAR : A.length ≤ R) :
    Runs r (receiveRest (some rb) R ret) (g.state r) c (ret, some (rb.write 0 A))
      (g.state r) ((Act.pop (0, r)).apply c) :=
  receiveRest_frame rb ret (g.participants_getElem?_zero hr) (Handle.fresh_idle 0) hc hA hAR

-- ---------------------------------------------------------------------------
-- A round of the team
-- ---------------------------------------------------------------------------

/-- Every rank gathers `recvsize / datasize` elements of `datasize > 0` bytes, at least one per
rank, from its buffer `bufs r` with room for its share, into a receive buffer of its own. -/
structure Admits (g : Team) (calls : Nat → Call) (bufs : Nat → Buf) (R ds : Nat) : Prop where
  datasize_pos : 0 < ds
  dvd : R % ds = 0
  le_count : g.n ≤ R / ds
  sendbuff : ∀ r < g.n, (calls r).sendbuff = some (bufs r)
  sendsize : ∀ r < g.n, chunk g.n ds (R / ds) r ≤ (calls r).sendsize
  recvsize : ∀ r < g.n, (calls r).recvsize = R
  datasize : ∀ r < g.n, (calls r).datasize = ds
  recvbuff : ∀ r < g.n, (calls r).recvbuff.isSome

/-- Team rank `r`'s call. -/
def code (g : Team) (calls : Nat → Call) (r : Nat) : CollM (Int × Option Buf) :=
  sendrecv (g.config r) (calls r).sendbuff (calls r).sendsize (calls r).recvbuff
    (calls r).recvsize (calls r).datasize

theorem code_blocking (g : Team) (calls : Nat → Call) (r : Nat) :
    CollM.Blocking (code g calls r) :=
  sendrecv_blocking _ _ _ _ _ _

/-- What team rank `r` returns: the size of its share, and its receive buffer with the
contributions of all ranks at its start. -/
def result (g : Team) (calls : Nat → Call) (bufs : Nat → Buf) (R ds r : Nat) : Int × Option Buf :=
  (chunk g.n ds (R / ds) r, (calls r).recvbuff.map (·.write 0 (gathered g bufs R ds)))

variable {g : Team} {calls : Nat → Call} {bufs : Nat → Buf} {R ds : Nat} {β : Type}

theorem round (h : Admits g calls bufs R ds) (K : Nat → (Int × Option Buf) × State → Proc β) :
    Net.Reach (g.start (code g calls) K) (g.finish (result g calls bufs R ds) K) := by
  have hG : gathered g bufs R ds ≠ [] := gathered_ne_nil h.datasize_pos h.le_count
  have hGR : (gathered g bufs R ds).length = R := length_gathered h.dvd
  refine g.reach_finish_two_phase
    (fun r => (receiveRest (calls r).recvbuff R (chunk g.n ds (R / ds) r)).run (g.state r) >>= K r)
    (fun r => Chans.star (fun _ => []) (Chans.span 1 r (part g bufs R ds)))
    (fun r => Chans.star (Chans.span r g.n fun _ => gathered g bufs R ds) fun _ => [])
    (by dsimp only; rw [Chans.span_empty le_rfl, Chans.star_empty])
    (by dsimp only; rw [Chans.span_empty le_rfl, Chans.star_empty])
    (fun r hr hrn => ?_) ?_ fun r hr hrn => ?_
  · obtain ⟨rb, hrb⟩ := Option.isSome_iff_exists.mp (h.recvbuff r hrn)
    have hnext := sendrecv_nonroot_next g hr (bufs r) rb h.datasize_pos h.dvd (h.sendsize r hrn)
      (Chans.star (fun _ => []) (Chans.span 1 r (part g bufs R ds)))
    rw [Chans.push_star_up hr.ne', show (bufs r).slice 0 _ = part g bufs R ds r from rfl,
      Chans.span_push hr] at hnext
    refine Proc.Run.single ?_
    simpa [code, h.sendbuff r hrn, h.recvsize r hrn, h.datasize r hrn, hrb] using
      Proc.next_bind (K r) hnext
  · obtain ⟨rb, hrb⟩ := Option.isSome_iff_exists.mp (h.recvbuff 0 g.zero_lt)
    have hroot := sendrecv_root_runs g (bufs 0) rb h.datasize_pos h.dvd (h.sendsize 0 g.zero_lt)
      (f := part g bufs R ds) (part_ne_nil h.datasize_pos h.le_count) (fun r => by simp [part])
      gathered_eq
      hGR
    simpa [code, result, h.sendbuff 0 g.zero_lt, h.recvsize 0 g.zero_lt, h.datasize 0 g.zero_lt,
      hrb] using hroot.cont (K 0)
  · obtain ⟨rb, hrb⟩ := Option.isSome_iff_exists.mp (h.recvbuff r hrn)
    have hrecv := receiveRest_fresh g hr.ne' rb R (chunk g.n ds (R / ds) r)
      (c := Chans.star (Chans.span r g.n fun _ => gathered g bufs R ds) fun _ => [])
      (by rw [Chans.star_down, Chans.span_of_mem le_rfl hrn]) hG hGR.le
    rw [Chans.pop_star_down, Chans.span_pop] at hrecv
    simpa [result, hrb] using hrecv.cont (K r)

/-- In every interleaving every rank of an all-gather returns its share's size with all ranks'
contributions, in rank order, at the start of its receive buffer. -/
theorem sendrecv_agrees (g : Team) (calls : Nat → Call) (bufs : Nat → Buf) (R ds : Nat)
    (h : Admits g calls bufs R ds) :
    (gathered g bufs R ds).length = R ∧
      ∀ r < g.n, (g.launch (code g calls)).Determined r (result g calls bufs R ds r, g.state r) :=
  ⟨length_gathered h.dvd,
    fun _ hr => Team.determined_of_finish (code_blocking g calls) (round h fun _ => .done) hr⟩

/-- Two ranks all-gathering one byte each. -/
theorem sendrecv_agrees_two_ranks :
    let g : Team := ⟨2, by decide, by decide⟩
    let calls : Nat → Call := fun _ => ⟨some fun _ => 7, 1, some fun _ => 0, 2, 1⟩
    let bufs : Nat → Buf := fun _ _ => 7
    Admits g calls bufs 2 1 ∧
      ((gathered g bufs 2 1).length = 2 ∧
        ∀ r < g.n, (g.launch (code g calls)).Determined r (result g calls bufs 2 1 r, g.state r)) :=
  have h : Admits ⟨2, by decide, by decide⟩ (fun _ => ⟨some fun _ => 7, 1, some fun _ => 0, 2, 1⟩)
      (fun _ _ => 7) 2 1 :=
    ⟨by decide, by decide, by decide, fun _ _ => rfl, fun _ _ => by simp [chunk],
      fun _ _ => rfl, fun _ _ => rfl, fun _ _ => rfl⟩
  ⟨h, sendrecv_agrees _ _ _ _ _ h⟩

end AllGatherGeneric
