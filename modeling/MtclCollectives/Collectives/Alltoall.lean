-- SUMMARY: AlltoallGeneric::sendrecv: every rank sends its whole buffer to the root, which stages them, assembles each rank's chunks and sends each rank its part; with equal chunks a second exchange undoes the first; the root's staging count is narrowed to an int and the size check wraps.
import MtclCollectives.Collectives.Gather

/-!
# AllToAll

`AlltoallGeneric::sendrecv` routes through the root: it stages every rank's buffer
(`stageLoop`), assembles each rank's part (`gatherChunk`) and sends it (`sendLoop`); the
exchange is a transpose, and two of the root's counts narrow or wrap.
-/

open CollM

namespace AlltoallGeneric

/-- `selfrecvcount` of `AlltoallGeneric::sendrecv`:
`(sendcount + ((rcount && (rank < (int)rcount)) ? datasize : 0)) * nparticipants`, a `size_t`. -/
def selfrecvcount (cfg : Config) (sendcount datasize rcount : Nat) : Nat :=
  toSizeT ((sendcount + if rcount ≠ 0 ∧ cfg.rank < toInt32 rcount then datasize else 0) *
    cfg.nparticipants)

/-- A buffer from `new char[...]`; none of its bytes is read before it is written. -/
def newBuf : Buf := fun _ => 0

/-- The root's staging loop from iteration `i`, `k` left: rank `i + 1`'s frame goes to
`allsendbuff + i * sendsize`, and `some r` returns a receive's `int` result `r ≤ 0`. -/
def stageLoop (sendsize : Nat) : Nat → Nat → Option Buf → CollM (Option Int × Option Buf)
  | _, 0, allsendbuff => pure (none, allsendbuff)
  | i, k + 1, allsendbuff => do
    let (r, allsendbuff) ← receiveFromHandle i allsendbuff (i * sendsize) sendsize
    let return_value := toInt32 r
    if return_value ≤ 0 then
      return (some return_value, allsendbuff)
    stageLoop sendsize (i + 1) k allsendbuff

/-- The inner loop of the assembly, from iteration `j` with `k` iterations left: the `chunksize`
bytes at `allsendbuff + j * sendsize + displ` go to `chunkbuff + offset`. -/
def gatherChunk (allsendbuff : Option Buf) (sendsize displ chunksize : Nat) :
    Nat → Nat → Nat → Option Buf → CollM (Option Buf)
  | _, 0, _, chunkbuff => pure chunkbuff
  | j, k + 1, offset, chunkbuff => do
    let chunkbuff ←
      writePtr chunkbuff offset (← readPtr allsendbuff (j * sendsize + displ) chunksize)
    gatherChunk allsendbuff sendsize displ chunksize (j + 1) k (offset + chunksize) chunkbuff

/-- The root's assembly loop from iteration `i`, `k` left: rank `i`'s part is built in `recvbuff` for
`i = 0` and otherwise in a new buffer sent on `participants[i - 1]`; `false` when a send fails. -/
def sendLoop (sendbuff allsendbuff : Option Buf) (nparticipants sendsize sendcount datasize : Nat) :
    Nat → Nat → Nat → Nat → Option Buf → CollM (Bool × Option Buf)
  | _, 0, _, _, recvbuff => pure (true, recvbuff)
  | i, k + 1, rcount, displ, recvbuff => do
    let (chunksize, rcount) := takeShare sendcount datasize rcount
    let chunkbuff ← writePtr (if i = 0 then recvbuff else some newBuf) 0
      (← readPtr sendbuff displ chunksize)
    let chunkbuff ← gatherChunk allsendbuff sendsize displ chunksize 0 (nparticipants - 1)
      chunksize chunkbuff
    if i ≠ 0 then
      let h ← participantsAt (i - 1)
      let d ← readPtr chunkbuff 0 (toSizeT (chunksize * nparticipants))
      if (← StateT.lift (h.send d)) < 0 then
        setErrno ECONNRESET
        return (false, recvbuff)
    sendLoop sendbuff allsendbuff nparticipants sendsize sendcount datasize (i + 1) k rcount
      (displ + chunksize) (if i = 0 then chunkbuff else recvbuff)

/-- `AlltoallGeneric::sendrecv(sendbuff, sendsize, recvbuff, recvsize, datasize)`: the return
value, and the receive buffer after the call. -/
def sendrecv (cfg : Config) (sendbuff : Option Buf) (sendsize : Nat) (recvbuff : Option Buf)
    (recvsize datasize : Nat) : CollM (Int × Option Buf) := do
  if sendbuff.isNone then
    setErrno EFAULT
    return (-1, recvbuff)
  if recvbuff.isNone then
    setErrno EFAULT
    return (-1, recvbuff)
  if (← sizeMod sendsize datasize) ≠ 0 then
    setErrno EINVAL
    return (-1, recvbuff)
  let datacount := sendsize / datasize
  let sendcount := datacount / cfg.nparticipants * datasize
  let rcount := datacount % cfg.nparticipants
  let selfrecvcount := selfrecvcount cfg sendcount datasize rcount
  if recvsize < selfrecvcount then
    setErrno EINVAL
    return (-1, recvbuff)
  if cfg.root then
    match ← stageLoop sendsize 0 (cfg.nparticipants - 1) (some newBuf) with
    | (some return_value, _) => return (return_value, recvbuff)
    | (none, allsendbuff) =>
      let (ok, recvbuff) ← sendLoop sendbuff allsendbuff cfg.nparticipants sendsize sendcount
        datasize 0 cfg.nparticipants rcount 0 recvbuff
      if !ok then
        return (-1, recvbuff)
      return (selfrecvcount, recvbuff)
  else
    let h ← participantsAt 0
    if (← StateT.lift (h.send (← readPtr sendbuff 0 sendsize))) < 0 then
      setErrno ECONNRESET
      return (-1, recvbuff)
    let recvbuff ← receiveAll recvbuff recvsize
    return (selfrecvcount, recvbuff)

/-- `AlltoallGeneric::probe`: not supported. -/
def probe (size : Nat) (_blocking : Bool) : CollM (Int × Nat) :=
  (·, size) <$> unsupported

/-- `AlltoallGeneric::send`: not supported. -/
def send (_buff : Option Buf) (_size : Nat) : CollM Int :=
  unsupported

/-- `AlltoallGeneric::receive`: not supported. -/
def receive (buff : Option Buf) (_size : Nat) : CollM (Int × Option Buf) :=
  (·, buff) <$> unsupported

/-- `AlltoallGeneric::close(close_wr, close_rd)`: every rank write-closes all its
handles. -/
def close : CollM Unit :=
  closeWhen true

-- ---------------------------------------------------------------------------
-- Blocking
-- ---------------------------------------------------------------------------

theorem stageLoop_blocking (sendsize i k : Nat) (allsendbuff : Option Buf) :
    CollM.Blocking (stageLoop sendsize i k allsendbuff) := by
  induction k generalizing i allsendbuff with
  | zero => exact Blocking.pure _
  | succ k ih =>
    refine Blocking.bind (receiveFromHandle_blocking _ _ _ _) fun _ => ?_
    dsimp only
    split
    · exact Blocking.pure _
    · exact Blocking.bind (Blocking.pure _) fun _ => ih _ _

theorem gatherChunk_blocking (allsendbuff : Option Buf) (sendsize displ chunksize j k offset : Nat)
    (chunkbuff : Option Buf) :
    CollM.Blocking (gatherChunk allsendbuff sendsize displ chunksize j k offset chunkbuff) := by
  induction k generalizing j offset chunkbuff with
  | zero => exact Blocking.pure _
  | succ k ih =>
    exact Blocking.bind (Blocking.readPtr _ _ _) fun _ =>
      Blocking.bind (Blocking.writePtr _ _ _) fun _ => ih _ _ _

theorem sendLoop_blocking (sendbuff allsendbuff : Option Buf)
    (nparticipants sendsize sendcount datasize i k rcount displ : Nat) (recvbuff : Option Buf) :
    CollM.Blocking (sendLoop sendbuff allsendbuff nparticipants sendsize sendcount datasize i k
      rcount displ recvbuff) := by
  induction k generalizing i rcount displ recvbuff with
  | zero => exact Blocking.pure _
  | succ k ih =>
    unfold sendLoop
    simp only [pure_bind]
    exact .bind (.readPtr _ _ _) fun _ => .bind (.writePtr _ _ _) fun _ =>
      .bind (gatherChunk_blocking _ _ _ _ _ _ _ _) fun _ => .ite
        (.bind (.participantsAt _) fun _ => .bind (.readPtr _ _ _) fun _ => .bind (.send _ _)
          fun _ => .ite (.fail _ _) (ih _ _ _ _))
        (ih _ _ _ _)

theorem sendrecv_blocking (cfg : Config) (sendbuff : Option Buf) (sendsize : Nat)
    (recvbuff : Option Buf) (recvsize datasize : Nat) :
    CollM.Blocking (sendrecv cfg sendbuff sendsize recvbuff recvsize datasize) := by
  unfold sendrecv
  simp only [pure_bind]
  exact .ite (.fail _ _) (.ite (.fail _ _) (.bind (.sizeMod _ _) fun _ => .ite (.fail _ _)
    (.ite (.fail _ _) (.ite
      (.bind (stageLoop_blocking _ _ _ _) fun
        | (some _, _) => .pure _
        | (none, _) => .bind (sendLoop_blocking _ _ _ _ _ _ _ _ _ _ _) fun _ =>
          .ite (.pure _) (.pure _))
      (.bind (.participantsAt 0) fun _ => .bind (.readPtr _ _ _) fun _ => .bind (.send _ _)
        fun _ => .ite (.fail _ _) (.bind (receiveAll_blocking _ _) fun _ => .pure _))))))

/-- Team rank `r`'s call. -/
def code (g : Team) (calls : Nat → Call) (r : Nat) : CollM (Int × Option Buf) :=
  sendrecv (g.config r) (calls r).sendbuff (calls r).sendsize (calls r).recvbuff
    (calls r).recvsize (calls r).datasize

theorem code_blocking (g : Team) (calls : Nat → Call) (r : Nat) :
    CollM.Blocking (code g calls r) :=
  sendrecv_blocking _ _ _ _ _ _

-- ---------------------------------------------------------------------------
-- The steps of each rank
-- ---------------------------------------------------------------------------

/-- A non-root's first step sends its whole buffer to the root. -/
theorem sendrecv_nonroot_next (g : Team) {r : Nat} (hr : 0 < r) (b rb : Buf) {S R ds : Nat}
    (hds : 0 < ds) (hS : S % ds = 0)
    (hR : selfrecvcount (g.config r) (S / ds / g.n * ds) ds (S / ds % g.n) ≤ R) (c : Chans) :
    ((sendrecv (g.config r) (some b) S (some rb) R ds).run (g.state r)).next r c =
      some ((receiveRest (some rb) R
          (selfrecvcount (g.config r) (S / ds / g.n * ds) ds (S / ds % g.n))).run (g.state r),
        (Act.push (r, 0) (.frame (b.slice 0 S))).apply c) := by
  simp only [sendrecv, Team.config_nparticipants, Team.config_root]
  simp only [Option.isNone_some, Bool.false_eq_true, ↓reduceIte, ne_eq, Int.reduceNeg,
    bind_pure_comp, Nat.not_lt.mpr hR, beq_iff_eq, hr.ne', Handle.send, pure_bind, ite_not,
    StateT.run_bind, run_sizeMod _ hds, hS, Proc.done_bind,
    run_participantsAt (s := g.state r) (g.participants_getElem?_zero hr.ne'), run_readPtr,
    StateT.run_lift, Proc.pure_eq, Proc.send_bind, Handle.fresh_peer, Proc.next_send,
    Buf.length_slice, show ¬((S : Nat) : Int) < 0 by omega, StateT.run_map, receiveRest]

/-- The root stops staging at a frame whose length reads as a non-positive `int`, and returns
that `int`. -/
theorem stageLoop_narrow {S i : Nat} {s : State} {h : Handle} {c : Chans} {f : Bytes}
    {l : List Msg} (hi : s.participants[i]? = some h) (hh : h.Idle)
    (hc : c (h.peer, 0) = .frame f :: l) (hf : f ≠ []) (hfS : f.length ≤ S)
    (hneg : toInt32 f.length ≤ 0) (k : Nat) (all : Buf) :
    Runs 0 (stageLoop S i (k + 1) (some all)) s c
      (some (toInt32 f.length), some (all.write (i * S) f)) s ((Act.pop (h.peer, 0)).apply c) :=
  (receiveFromHandle_frame all (i * S) hi hh hc hf hfS).bind (Runs.of_eq (by simp [hneg]))

/-- When the first staged frame, from rank `1`, has a length that reads as a non-positive
`int`, the root returns that `int`, whatever the other ranks do. -/
theorem sendrecv_root_narrows (g : Team) (hn : 1 < g.n) (b rb : Buf) {S R ds : Nat}
    (hds : 0 < ds) (hS : S % ds = 0)
    (hR : selfrecvcount (g.config 0) (S / ds / g.n * ds) ds (S / ds % g.n) ≤ R) {c : Chans}
    {f : Bytes} {l : List Msg} (hc : c (1, 0) = .frame f :: l) (hf : f ≠ [])
    (hfS : f.length ≤ S) (hneg : toInt32 f.length ≤ 0) :
    Runs 0 (sendrecv (g.config 0) (some b) S (some rb) R ds) (g.state 0) c
      (toInt32 f.length, some rb) (g.state 0) ((Act.pop (1, 0)).apply c) := by
  obtain ⟨k, hk⟩ : ∃ k, g.n - 1 = k + 1 := ⟨g.n - 2, by omega⟩
  have hstage := stageLoop_narrow (s := g.state 0) (g.participants_root_getElem? (i := 0) hn)
    (Handle.fresh_idle 1) hc hf hfS hneg k newBuf
  unfold Runs
  simp only [sendrecv, Team.config_nparticipants, Team.config_root]
  simp only [Option.isNone_some, Bool.false_eq_true, ↓reduceIte, ne_eq, Int.reduceNeg,
    bind_pure_comp, Nat.not_lt.mpr hR, beq_self_eq_true, hk, Bool.not_eq_eq_eq_not, Bool.not_true,
    map_pure, pure_bind, ite_not, StateT.run_bind, run_sizeMod _ hds, hS, Proc.done_bind]
  exact Runs.run_bind hstage Proc.Run.refl

-- ---------------------------------------------------------------------------
-- The root's loops
-- ---------------------------------------------------------------------------

/-- The staging buffer after the root's first `k` receives, of the frames `f 1, …, f k`, each
at `allsendbuff + (i - 1) * S`. -/
def staged (f : Nat → Bytes) (S : Nat) : Nat → Buf
  | 0 => newBuf
  | k + 1 => (staged f S k).write (k * S) (f (k + 1))

/-- Each staged frame of `S` bytes of `bufs (t + 1)` is read back where it was stored. -/
theorem slice_staged {bufs : Nat → Buf} {S : Nat} {t k d len : Nat} (ht : t < k)
    (hd : d + len ≤ S) :
    (staged (fun j => (bufs j).slice 0 S) S k).slice (t * S + d) len = (bufs (t + 1)).slice d len := by
  induction k with
  | zero => omega
  | succ k ih =>
    rw [staged]
    rcases Nat.lt_succ_iff_lt_or_eq.mp ht with ht | rfl
    · rw [Buf.slice_write_of_disjoint (.inl ?_), ih ht]
      calc t * S + d + len ≤ t * S + S := by omega
        _ = (t + 1) * S := (Nat.succ_mul t S).symm
        _ ≤ k * S := Nat.mul_le_mul_right S ht
    · rw [Buf.slice_write_slice hd, Nat.zero_add]

section Loops

variable {n : Nat} {s : State}

/-- From iteration `i` on, the staging loop takes the frame `f (j + 1)` of each rank `j + 1` on
`participants[j]`, when each frame holds `S` bytes and `S` reads as a positive `int`. -/
theorem stageLoop_runs {S : Nat} {f : Nat → Bytes} (hf : ∀ r, (f r).length = S) (hS : 0 < S)
    (hpos : 0 < toInt32 S) (i k : Nat) (hk : i + k < n)
    (hs : ∀ j, i ≤ j → j < i + k → s.participants[j]? = some (.fresh (j + 1))) :
    Runs 0 (stageLoop S i k (some (staged f S i))) s
      (Chans.star (fun _ => []) (Chans.span (i + 1) n f))
      (none, some (staged f S (i + k))) s (Chans.star (fun _ => []) (Chans.span (i + 1 + k) n f)) := by
  induction k generalizing i with
  | zero => exact Runs.pure' _ _ _
  | succ k ih =>
    have hne : f (i + 1) ≠ [] := List.ne_nil_of_length_pos (by rw [hf]; exact hS)
    have hc : Chans.star (fun _ => []) (Chans.span (i + 1) n f) ((Handle.fresh (i + 1)).peer, 0) =
        [.frame (f (i + 1))] := by
      rw [Handle.fresh_peer, Chans.star_up (by omega), Chans.span_of_mem le_rfl (by omega)]
    have hrecv := receiveFromHandle_frame (p := 0) (staged f S i) (i * S)
      (hs i le_rfl (by omega)) (Handle.fresh_idle _) hc hne (hf _).le
    rw [Handle.fresh_peer, Chans.pop_star_up (by omega), Chans.span_pop] at hrecv
    have hrest := ih (i + 1) (by omega) fun j h₁ h₂ => hs j (by omega) (by omega)
    rw [show i + 1 + 1 + k = i + 1 + (k + 1) by omega, show i + 1 + k = i + (k + 1) by omega]
      at hrest
    refine Runs.bind hrecv ?_
    simpa [hf, Int.not_le.mpr hpos] using hrest

/-- The inner loop of the assembly copies `k` runs of `chunksize` bytes, one from each staged
buffer, one after another. -/
theorem run_gatherChunk (all cb : Buf) (S displ chunksize j k offset : Nat) (s : State) :
    (gatherChunk (some all) S displ chunksize j k offset (some cb)).run s =
      .done (some (cb.write offset
        ((List.range' j k).map fun t => all.slice (t * S + displ) chunksize).flatten), s) := by
  induction k generalizing j offset cb with
  | zero => simp [gatherChunk]
  | succ k ih =>
    simp [gatherChunk, ih, List.range'_succ, ← Buf.write_append]

end Loops

-- ---------------------------------------------------------------------------
-- The parts
-- ---------------------------------------------------------------------------

/-- What rank `r` receives: the `chunk r` bytes at `displ r` of the buffer of every rank, in
rank order. -/
def part (g : Team) (bufs : Nat → Buf) (S ds r : Nat) : Bytes :=
  ((List.range g.n).map fun j =>
    (bufs j).slice (displ g.n ds (S / ds) r) (chunk g.n ds (S / ds) r)).flatten

variable {g : Team} {bufs : Nat → Buf} {S ds : Nat}

theorem length_flatten_slices (f : Nat → Buf) (off len k : Nat) :
    ((List.range k).map fun j => (f j).slice off len).flatten.length = len * k := by
  induction k with
  | zero => rfl
  | succ k ih => simp [List.range_succ, ih, Nat.mul_succ]

theorem length_part (r : Nat) : (part g bufs S ds r).length = chunk g.n ds (S / ds) r * g.n :=
  length_flatten_slices _ _ _ _

/-- The part of rank `r` as the root assembles it: from its own buffer, then from the staged
buffers of the other ranks. -/
theorem part_eq_assembled {all : Buf}
    (hall : ∀ t d len, t + 1 < g.n → d + len ≤ S → all.slice (t * S + d) len = (bufs (t + 1)).slice d len)
    (hS : S % ds = 0) {r : Nat} (hr : r < g.n) :
    (bufs 0).slice (displ g.n ds (S / ds) r) (chunk g.n ds (S / ds) r) ++
      ((List.range' 0 (g.n - 1)).map fun t =>
        all.slice (t * S + displ g.n ds (S / ds) r) (chunk g.n ds (S / ds) r)).flatten =
      part g bufs S ds r := by
  have hfit : displ g.n ds (S / ds) r + chunk g.n ds (S / ds) r ≤ S := by
    simpa [Nat.div_mul_cancel (Nat.dvd_of_mod_eq_zero hS)] using
      @displ_add_chunk_le g.n ds (S / ds) r hr
  rw [List.map_congr_left fun t ht => hall t _ _ (by simp at ht; omega) hfit, part,
    ← Nat.sub_add_cancel g.one_le, List.range_succ_eq_map, ← List.range_eq_range']
  simp [Function.comp_def]

/-- The `size_t` count of no part wraps when that of the root's, the largest, does not. -/
theorem chunk_mul_lt (hfit : chunk g.n ds (S / ds) 0 * g.n < 2 ^ 64) (r : Nat) :
    chunk g.n ds (S / ds) r * g.n < 2 ^ 64 :=
  Nat.lt_of_le_of_lt (Nat.mul_le_mul_right _ (chunk_antitone (Nat.zero_le r))) hfit

/-- `selfrecvcount` is the size of the rank's part, when the root's does not wrap. -/
theorem selfrecvcount_eq (hfit : chunk g.n ds (S / ds) 0 * g.n < 2 ^ 64) (r : Nat) :
    selfrecvcount (g.config r) (S / ds / g.n * ds) ds (S / ds % g.n) =
      chunk g.n ds (S / ds) r * g.n := by
  have hch := @chunk_rank_eq g.n ds (S / ds) r g.le_int g.zero_lt
  rw [selfrecvcount, Team.config_rank, Team.config_nparticipants,
    ← toSizeT_of_lt (chunk_mul_lt hfit r), ← hch]
  split_ifs <;> rfl

-- ---------------------------------------------------------------------------
-- The root's assembly loop
-- ---------------------------------------------------------------------------

section Assembly

variable {all : Buf}
  (hall : ∀ t d len, t + 1 < g.n → d + len ≤ S → all.slice (t * S + d) len = (bufs (t + 1)).slice d len)
  (hS : S % ds = 0) (hfit : chunk g.n ds (S / ds) 0 * g.n < 2 ^ 64)
include hall hS hfit

omit hfit in
/-- The root's copies into a chunk buffer `b` leave the part of rank `r` at its start. -/
theorem write_assembled (b : Buf) {r : Nat} (hr : r < g.n) :
    (b.write 0 ((bufs 0).slice (displ g.n ds (S / ds) r) (chunk g.n ds (S / ds) r))).write
        (chunk g.n ds (S / ds) r) ((List.range' 0 (g.n - 1)).map fun t =>
          all.slice (t * S + displ g.n ds (S / ds) r) (chunk g.n ds (S / ds) r)).flatten =
      b.write 0 (part g bufs S ds r) := by
  rw [← part_eq_assembled hall hS hr, ← Buf.write_append, Buf.length_slice, Nat.zero_add]

/-- From iteration `i > 0` on, the assembly loop sends each rank `j` its part, in rank order,
when every send succeeds. -/
theorem sendLoop_emits (i k : Nat) (hi : 0 < i) (hik : i + k = g.n) (rb : Buf) :
    Proc.Emits ((sendLoop (some (bufs 0)) (some all) g.n S (S / ds / g.n * ds) ds i k
        (S / ds % g.n - i) (displ g.n ds (S / ds) i) (some rb)).run (g.state 0))
      ((List.range' i k).map fun j => (j, part g bufs S ds j)) ((true, some rb), g.state 0) := by
  induction k generalizing i with
  | zero => exact .done _
  | succ k ih =>
    have hread : (newBuf.write 0 (part g bufs S ds i)).slice 0 (chunk g.n ds (S / ds) i * g.n) =
        part g bufs S ds i := by
      rw [← length_part]; exact Buf.slice_write_self _ _ _
    have hsend := ih (i + 1) (by omega) (by omega)
    rw [displ_succ] at hsend
    simp only [sendLoop, takeShare_eq]
    simp only [hi.ne', ↓reduceIte, ne_eq, not_false_eq_true, toSizeT_of_lt (chunk_mul_lt hfit i),
      Handle.send, bind_pure_comp, pure_bind, StateT.run_bind, run_readPtr, run_writePtr,
      StateT.run_lift, Proc.pure_eq, Proc.send_bind, Proc.done_bind, run_gatherChunk,
      run_participantsAt (s := g.state 0) (g.participants_root_getElem? (i := i - 1) (by omega)),
      Nat.sub_add_cancel hi, write_assembled hall hS _ (show i < g.n by omega), hread,
      Handle.fresh_peer]
    exact .send fun x hx => by simpa [Int.not_lt.mpr hx, List.range'_succ] using hsend

/-- The whole assembly loop: the root keeps its own part and sends every other rank its part,
in rank order, when every send succeeds. -/
theorem sendLoop_root_emits (rb : Buf) :
    Proc.Emits ((sendLoop (some (bufs 0)) (some all) g.n S (S / ds / g.n * ds) ds 0 g.n
        (S / ds % g.n) 0 (some rb)).run (g.state 0))
      ((List.range' 1 (g.n - 1)).map fun j => (j, part g bufs S ds j))
      ((true, some (rb.write 0 (part g bufs S ds 0))), g.state 0) := by
  have hsend := sendLoop_emits hall hS hfit 1 (g.n - 1) one_pos (by have := g.one_le; omega)
    (rb.write 0 (part g bufs S ds 0))
  have hw := write_assembled hall hS rb g.zero_lt
  rw [displ_one] at hsend
  obtain ⟨k, hk⟩ : ∃ k, g.n = k + 1 := ⟨g.n - 1, (Nat.sub_add_cancel g.one_le).symm⟩
  rw [hk] at hsend hw
  simp only [displ_zero, Nat.add_zero, Nat.add_sub_cancel] at hw
  simp only [hk, sendLoop, takeShare_eq_zero]
  simpa [run_gatherChunk, hw] using hsend

end Assembly

-- ---------------------------------------------------------------------------
-- A round of the team
-- ---------------------------------------------------------------------------

/-- The root stages every rank's `S` bytes, keeps its part and sends the others theirs, when `S` is a
positive `int` and its part's size does not wrap. -/
theorem sendrecv_root_runs (rb : Buf) {R : Nat} (hds : 0 < ds) (hS : S % ds = 0) (hSpos : 0 < S)
    (hpos : 0 < toInt32 S) (hfit : chunk g.n ds (S / ds) 0 * g.n < 2 ^ 64)
    (hR : chunk g.n ds (S / ds) 0 * g.n ≤ R) :
    Runs 0 (sendrecv (g.config 0) (some (bufs 0)) S (some rb) R ds) (g.state 0)
      (Chans.star (fun _ => []) (Chans.span 1 g.n fun j => (bufs j).slice 0 S))
      ((chunk g.n ds (S / ds) 0 * g.n : Nat), some (rb.write 0 (part g bufs S ds 0))) (g.state 0)
      (Chans.star (Chans.span 1 g.n (part g bufs S ds)) fun _ => []) := by
  have hn : 1 + (g.n - 1) = g.n := by have := g.one_le; omega
  have hstage := stageLoop_runs (n := g.n) (s := g.state 0) (f := fun j => (bufs j).slice 0 S)
    (fun _ => Buf.length_slice _ _ _) hSpos hpos 0 (g.n - 1) (by omega)
    fun j _ hj => g.participants_root_getElem? (i := j) (by omega)
  simp only [Nat.zero_add, hn, Chans.span_empty le_rfl] at hstage
  have hall : ∀ t d len, t + 1 < g.n → d + len ≤ S →
      (staged (fun j => (bufs j).slice 0 S) S (g.n - 1)).slice (t * S + d) len =
        (bufs (t + 1)).slice d len :=
    fun _ _ _ ht hd => slice_staged (by omega) hd
  have hsend := Runs.of_emits (p := 0) (sendLoop_root_emits hall hS hfit rb)
    (Chans.star (fun _ => []) fun _ => [])
  have hl : (List.range' 1 (g.n - 1)).map (fun j => (j, part g bufs S ds j)) =
      (List.range (g.n - 1)).map fun i => (i + 1, part g bufs S ds (i + 1)) := by
    simp [List.range'_eq_map_range, Nat.add_comm]
  rw [hl, Chans.sendAll_star_root, Nat.sub_add_cancel g.one_le] at hsend
  unfold Runs
  simp only [sendrecv, Team.config_nparticipants, Team.config_root]
  simp only [Option.isNone_some, Bool.false_eq_true, ↓reduceIte, ne_eq, Int.reduceNeg,
    bind_pure_comp, selfrecvcount_eq hfit, Nat.not_lt.mpr hR, beq_self_eq_true,
    Bool.not_eq_eq_eq_not, Bool.not_true, Nat.cast_mul, map_pure, pure_bind, ite_not,
    StateT.run_bind, run_sizeMod _ hds, hS, Proc.done_bind]
  refine Runs.run_bind hstage ?_
  simp only [StateT.run_bind, Proc.done_bind]
  exact Runs.run_bind hsend Proc.Run.refl

/-- The arguments of an all-to-all that the root neither narrows nor wraps, with room for every
rank's part. -/
structure Admits (g : Team) (calls : Nat → Call) (bufs : Nat → Buf) (S ds : Nat) : Prop where
  datasize_pos : 0 < ds
  dvd : S % ds = 0
  le_count : g.n ≤ S / ds
  staged_pos : 0 < toInt32 S
  fits : chunk g.n ds (S / ds) 0 * g.n < 2 ^ 64
  sendbuff : ∀ r < g.n, (calls r).sendbuff = some (bufs r)
  sendsize : ∀ r < g.n, (calls r).sendsize = S
  recvsize : ∀ r < g.n, chunk g.n ds (S / ds) r * g.n ≤ (calls r).recvsize
  datasize : ∀ r < g.n, (calls r).datasize = ds
  recvbuff : ∀ r < g.n, (calls r).recvbuff.isSome

/-- An admitted call whose staging size `sendsize * (nparticipants - 1)` does not wrap, so that
`new char[...]` gets what the root writes. -/
structure Allocates (g : Team) (calls : Nat → Call) (bufs : Nat → Buf) (S ds : Nat)
    extends Admits g calls bufs S ds : Prop where
  staged : S * (g.n - 1) < 2 ^ 64

/-- What team rank `r` returns: the size of its part, and its receive buffer with the part at
its start. -/
def result (g : Team) (calls : Nat → Call) (bufs : Nat → Buf) (S ds r : Nat) : Int × Option Buf :=
  ((chunk g.n ds (S / ds) r * g.n : Nat), (calls r).recvbuff.map (·.write 0 (part g bufs S ds r)))

variable {calls : Nat → Call} {β : Type}

theorem part_ne_nil (hds : 0 < ds) (hle : g.n ≤ S / ds) (r : Nat) : part g bufs S ds r ≠ [] := by
  rw [← List.length_pos, length_part]
  exact Nat.mul_pos (chunk_pos g.zero_lt hle hds r) g.zero_lt

theorem Admits.sendsize_pos (h : Admits g calls bufs S ds) : 0 < S :=
  Nat.lt_of_lt_of_le (Nat.mul_pos g.zero_lt h.datasize_pos)
    ((Nat.mul_le_mul_right ds h.le_count).trans (Nat.div_mul_le_self S ds))

theorem round (h : Admits g calls bufs S ds) (K : Nat → (Int × Option Buf) × State → Proc β) :
    Net.Reach (g.start (code g calls) K) (g.finish (result g calls bufs S ds) K) := by
  have hsel := fun r (_ : r < g.n) => selfrecvcount_eq h.fits r
  refine g.reach_finish_two_phase (fun r => (receiveRest (calls r).recvbuff (calls r).recvsize
      (chunk g.n ds (S / ds) r * g.n)).run (g.state r) >>= K r)
    (fun r => Chans.star (fun _ => []) (Chans.span 1 r fun j => (bufs j).slice 0 S))
    (fun r => Chans.star (Chans.span r g.n (part g bufs S ds)) fun _ => [])
    (by dsimp only; rw [Chans.span_empty le_rfl, Chans.star_empty])
    (by dsimp only; rw [Chans.span_empty le_rfl, Chans.star_empty])
    (fun r hr hrn => ?_) ?_ fun r hr hrn => ?_
  · obtain ⟨rb, hrb⟩ := Option.isSome_iff_exists.mp (h.recvbuff r hrn)
    have hnext := sendrecv_nonroot_next g hr (bufs r) rb h.datasize_pos h.dvd
      ((hsel r hrn).trans_le (h.recvsize r hrn))
      (Chans.star (fun _ => []) (Chans.span 1 r fun j => (bufs j).slice 0 S))
    rw [Chans.push_star_up hr.ne', Chans.span_push (f := fun j => (bufs j).slice 0 S) hr,
      hsel r hrn] at hnext
    refine Proc.Run.single ?_
    simpa [code, h.sendbuff r hrn, h.sendsize r hrn, h.datasize r hrn, hrb] using
      Proc.next_bind (K r) hnext
  · obtain ⟨rb, hrb⟩ := Option.isSome_iff_exists.mp (h.recvbuff 0 g.zero_lt)
    have hroot := @sendrecv_root_runs g bufs S ds rb _ h.datasize_pos h.dvd h.sendsize_pos
      h.staged_pos h.fits (h.recvsize 0 g.zero_lt)
    simpa [code, result, h.sendbuff 0 g.zero_lt, h.sendsize 0 g.zero_lt, h.datasize 0 g.zero_lt,
      hrb] using hroot.cont (K 0)
  · obtain ⟨rb, hrb⟩ := Option.isSome_iff_exists.mp (h.recvbuff r hrn)
    have hrecv := receiveRest_frame (p := r) (s := g.state r) rb (chunk g.n ds (S / ds) r * g.n)
      (g.participants_getElem?_zero hr.ne') (Handle.fresh_idle 0)
      (c := Chans.star (Chans.span r g.n (part g bufs S ds)) fun _ => []) (l := [])
      (by rw [Handle.fresh_peer, Chans.star_down, Chans.span_of_mem le_rfl hrn])
      (part_ne_nil h.datasize_pos h.le_count r) ((length_part r).trans_le (h.recvsize r hrn))
    rw [Handle.fresh_peer, Chans.pop_star_down, Chans.span_pop] at hrecv
    simpa [result, hrb] using hrecv.cont (K r)

/-- When the root's counts are neither narrowed nor wrapped, the exchange is the personalised
all-to-all: every rank returns `chunk r * n` with its part, and keeps its handles. -/
theorem sendrecv_exchanges (g : Team) (calls : Nat → Call) (bufs : Nat → Buf) (S ds : Nat)
    (h : Allocates g calls bufs S ds) :
    ∀ r < g.n, (g.launch (code g calls)).Determined r (result g calls bufs S ds r, g.state r) :=
  fun _ hr => Team.determined_of_finish (code_blocking g calls) (round h.toAdmits fun _ => .done) hr

/-- Two ranks exchanging two one-byte elements each. -/
theorem sendrecv_exchanges_two_ranks :
    let g : Team := ⟨2, by decide, by decide⟩
    let calls : Nat → Call := fun _ => ⟨some fun _ => 7, 2, some fun _ => 0, 2, 1⟩
    let bufs : Nat → Buf := fun _ _ => 7
    Allocates g calls bufs 2 1 ∧
      ∀ r < g.n, (g.launch (code g calls)).Determined r (result g calls bufs 2 1 r, g.state r) :=
  have h : Allocates ⟨2, by decide, by decide⟩
      (fun _ => ⟨some fun _ => 7, 2, some fun _ => 0, 2, 1⟩) (fun _ _ => 7) 2 1 :=
    ⟨⟨by decide, by decide, by decide, by decide, by decide, fun _ _ => rfl, fun _ _ => rfl,
      fun _ _ => by simp [chunk], fun _ _ => rfl, fun _ _ => rfl⟩, by decide⟩
  ⟨h, sendrecv_exchanges _ _ _ _ _ h⟩

/-- With every chunk of one size, the exchange is a transpose: exchanging the parts again gives
each rank back its own buffer. -/
theorem part_transpose (hS : S % ds = 0) (hu : S / ds % g.n = 0) (rbs : Nat → Buf) {r : Nat}
    (hr : r < g.n) :
    part g (fun j => (rbs j).write 0 (part g bufs S ds j)) S ds r = (bufs r).slice 0 S := by
  have hc : ∀ j, chunk g.n ds (S / ds) j = S / ds / g.n * ds := fun j => by simp [chunk, hu]
  have hd : ∀ j, displ g.n ds (S / ds) j = j * (S / ds / g.n * ds) := fun j => by
    simp [displ_eq, hu]
  have hSc : S = g.n * (S / ds / g.n * ds) := by
    rw [← Nat.mul_assoc, Nat.mul_div_cancel' (Nat.dvd_of_mod_eq_zero hu),
      Nat.div_mul_cancel (Nat.dvd_of_mod_eq_zero hS)]
  unfold part
  simp only [hc, hd]
  rw [List.map_congr_left fun j _ => Buf.slice_write_blocks (rbs j) (fun i => Buf.length_slice _ _ _) hr]
  conv_rhs => rw [hSc]
  simpa using Buf.flatten_slices (bufs r) 0 (S / ds / g.n * ds) g.n

/-- With equal chunks a second all-to-all of the receive buffers gives every rank its own `S`
bytes back; both calls return `S`. -/
theorem sendrecv_twice_restores (g : Team) (calls calls' : Nat → Call) (bufs rbs : Nat → Buf)
    (S ds : Nat) (h : Allocates g calls bufs S ds)
    (hrb : ∀ r < g.n, (calls r).recvbuff = some (rbs r)) (hu : S / ds % g.n = 0)
    (h' : Allocates g calls' (fun r => (rbs r).write 0 (part g bufs S ds r)) S ds) :
    ∀ r < g.n, (g.launch (code g calls)).Determined r
        (((S : Int), some ((rbs r).write 0 (part g bufs S ds r))), g.state r) ∧
      (g.launch (code g calls')).Determined r
        (((S : Int), (calls' r).recvbuff.map (·.write 0 ((bufs r).slice 0 S))), g.state r) := by
  intro r hr
  have hS : chunk g.n ds (S / ds) r * g.n = S := by
    simp only [chunk, hu, Nat.not_lt_zero, if_false, Nat.add_zero]
    rw [Nat.mul_right_comm, Nat.div_mul_cancel (Nat.dvd_of_mod_eq_zero hu),
      Nat.div_mul_cancel (Nat.dvd_of_mod_eq_zero h.dvd)]
  refine ⟨?_, ?_⟩
  · simpa [result, hrb r hr, hS] using
      Team.determined_of_finish (code_blocking g calls) (round h.toAdmits fun _ => .done) hr
  · simpa [result, hS, part_transpose h.dvd hu rbs hr] using
      Team.determined_of_finish (code_blocking g calls') (round h'.toAdmits fun _ => .done) hr

/-- Two ranks sending `10 r, 10 r + 1`: the first exchange gives `0, 10` and `1, 11`, the second
the bytes sent. -/
theorem sendrecv_twice_restores_two_ranks :
    let g : Team := ⟨2, by decide, by decide⟩
    let bufs : Nat → Buf := fun r a => (10 * r + a).toUInt8
    let calls : Nat → Call := fun r => ⟨some (bufs r), 2, some fun _ => 0, 2, 1⟩
    let calls' : Nat → Call := fun r =>
      ⟨some (Buf.write (fun _ => 0) 0 (part g bufs 2 1 r)), 2, some fun _ => 0, 2, 1⟩
    ∀ r < g.n, (g.launch (code g calls)).Determined r
        ((2, some (Buf.write (fun _ => 0) 0 (part g bufs 2 1 r))), g.state r) ∧
      (g.launch (code g calls')).Determined r
        ((2, some (Buf.write (fun _ => 0) 0 ((bufs r).slice 0 2))), g.state r) := by
  intro g bufs calls calls'
  exact sendrecv_twice_restores g calls calls' bufs (fun _ _ => 0) 2 1
    ⟨⟨by decide, by decide, by decide, by decide, by decide, fun _ _ => rfl, fun _ _ => rfl,
      fun _ _ => by simp [chunk], fun _ _ => rfl, fun _ _ => rfl⟩, by decide⟩ (fun _ _ => rfl)
    (by decide)
    ⟨⟨by decide, by decide, by decide, by decide, by decide, fun _ _ => rfl, fun _ _ => rfl,
      fun _ _ => by simp [chunk], fun _ _ => rfl, fun _ _ => rfl⟩, by decide⟩

/-- The parts of the two ranks after the first exchange. -/
example : part ⟨2, by decide, by decide⟩ (fun r a => (10 * r + a).toUInt8) 2 1 0 = [0, 10] ∧
    part ⟨2, by decide, by decide⟩ (fun r a => (10 * r + a).toUInt8) 2 1 1 = [1, 11] := by
  decide

/-- Two ranks, one `2^63`-byte element: `selfrecvcount` wraps to `0`, so `recvsize = 0` passes the
check although the root's part needs `2^64` bytes. -/
theorem selfrecvcount_wraps :
    let g : Team := ⟨2, by decide, by decide⟩
    chunk g.n (2 ^ 63) 1 0 * g.n = 2 ^ 64 ∧
      selfrecvcount (g.config 0) (1 / g.n * 2 ^ 63) (2 ^ 63) (1 % g.n) / g.n = 0 ∧
      ¬ 0 < selfrecvcount (g.config 0) (1 / g.n * 2 ^ 63) (2 ^ 63) (1 % g.n) :=
  ⟨by decide, by decide, by decide⟩

/-- Two ranks exchange `2^31` bytes, where spec §4.7 has each return `2^31`, and the root returns
`-2^31`, its staging receive read as an `int`. -/
theorem sendrecv_narrows (b₀ b₁ rb₀ rb₁ : Buf) :
    let g : Team := ⟨2, by decide, by decide⟩
    let calls : Nat → Call := fun r =>
      ⟨some (if r = 0 then b₀ else b₁), 2 ^ 31, some (if r = 0 then rb₀ else rb₁), 2 ^ 31, 1⟩
    chunk g.n 1 (2 ^ 31) 0 * g.n = 2 ^ 31 ∧
      (g.launch (code g calls)).Determined 0 ((-2 ^ 31, some rb₀), g.state 0) := by
  intro g calls
  have hsend := Proc.Run.single (sendrecv_nonroot_next g one_pos b₁ rb₁ one_pos
    (Nat.mod_one (2 ^ 31)) (show _ ≤ 2 ^ 31 by decide) fun _ => [])
  have hroot := sendrecv_root_narrows g (by decide) b₀ rb₀ one_pos (Nat.mod_one (2 ^ 31))
    (show _ ≤ 2 ^ 31 by decide)
    (c := (Act.push (1, 0) (.frame (b₁.slice 0 (2 ^ 31)))).apply fun _ => [])
    (f := b₁.slice 0 (2 ^ 31)) (l := []) (by simp [Act.apply, Act.edit])
    (List.ne_nil_of_length_pos (by simp)) (by simp) (by simp only [Buf.length_slice]; decide)
  rw [Buf.length_slice] at hroot
  exact ⟨by decide, Team.determined_root_after (code_blocking g calls) one_pos (by decide)
    (hsend.bind .done) hroot⟩

end AlltoallGeneric
