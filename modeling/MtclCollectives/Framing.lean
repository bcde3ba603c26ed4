-- SUMMARY: The framing helper of CollectiveImpl: probeHandle and receiveFromHandle, with what each does on a handle.
import MtclCollectives.Network.Run

/-!
# The framing helper

`CollectiveImpl::probeHandle` caches the size of the next frame and `receiveFromHandle` takes
exactly that frame; a frame of size 0, a closed or a reset connection read as end of stream and
close the handle for reading.
-/

open CollM

/-- `sizeof(size_t)`: what `Handle::probe` returns when it read a header. -/
def sizeofSizeT : Int := 8

/-- `CollectiveImpl::probeHandle(realHandle, size, blocking)` with `realHandle = participants[i]`:
the return value and the out-parameter `size`. -/
def probeHandle (i : Nat) (size : Nat) (blocking : Bool) : CollM (Int × Nat) := do
  let h ← participantsAt i
  if h.probed.1 then
    return (if h.probed.2 ≠ 0 then sizeofSizeT else 0, h.probed.2)
  if h.closedRd then
    return (0, size)
  match ← StateT.lift (h.probe blocking) with
  | .eof =>
    closeAt i true true
    return (0, size)
  | .fail e =>
    setErrno e
    if e = ECONNRESET then
      closeAt i true true
      return (0, size)
    if e = EWOULDBLOCK ∨ e = EAGAIN then
      setErrno EWOULDBLOCK
      return (-1, size)
    return (-1, size)
  | .header sz =>
    setParticipant i { h with probed := (true, sz) }
    if sz = 0 then
      closeAt i false true
      return (0, sz)
    return (sizeofSizeT, sz)

/-- `CollectiveImpl::receiveFromHandle(realHandle, buff + off, size)`, with `realHandle` the
handle at `participants[i]`: the return value, and the buffer after the call. -/
def receiveFromHandle (i : Nat) (buff : Option Buf) (off : Nat) (size : Nat) :
    CollM (Int × Option Buf) := do
  let h ← participantsAt i
  if !h.probed.1 then
    let (r, _) ← probeHandle i 0 true
    if r ≤ 0 then
      return (r, buff)
  else if h.closedRd then
    return (0, buff)
  let h ← participantsAt i
  let sz := h.probed.2
  if sz > size then
    setErrno ENOMEM
    return (-1, buff)
  setParticipant i { h with probed := (false, 0) }
  match ← StateT.lift (h.receive (min sz size)) with
  | some d => return (d.length, ← writePtr buff off d)
  | none => return (-1, buff)

/-- The loop `for (auto& h : participants) if (h->send(buff, size) < 0) { errno = ECONNRESET;
return -1; }` over the handles `hs`: `false` when a send failed. -/
def sendEach (buff : Option Buf) (size : Nat) : List Handle → CollM Bool
  | [] => pure true
  | h :: hs => do
    let d ← readPtr buff 0 size
    if (← StateT.lift (h.send d)) < 0 then
      setErrno ECONNRESET
      return false
    sendEach buff size hs

/-- The non-root branch of `BroadcastGeneric::sendrecv` and `ScatterGeneric::sendrecv`: take
one frame from the root, and close the write side when it read end-of-stream. -/
def receiveShare (recvbuff : Option Buf) (recvsize : Nat) : CollM (Int × Option Buf) := do
  let res ← receiveFromHandle 0 recvbuff 0 recvsize
  if res.1 = 0 then
    closeAt 0 true false
  return res

/-- `if (receiveFromHandle(h, recvbuff, recvsize) == 0) h->close(true, false);` of the all-gather
and all-to-all non-roots: the receive buffer after it. -/
def receiveAll (recvbuff : Option Buf) (recvsize : Nat) : CollM (Option Buf) := do
  let (res, recvbuff) ← receiveFromHandle 0 recvbuff 0 recvsize
  if res = 0 then
    closeAt 0 true false
  return recvbuff

/-- The rest of an all-gather or all-to-all non-root's call after its send: `receiveAll`, then
`return ret`. -/
def receiveRest (recvbuff : Option Buf) (recvsize ret : Nat) : CollM (Int × Option Buf) :=
  receiveAll recvbuff recvsize >>= fun recvbuff => pure (ret, recvbuff)

/-- The loop `for (auto& h : participants) h->close(true, false);` from `participants[i]` on,
`k` handles. -/
def closeEach : Nat → Nat → CollM Unit
  | _, 0 => pure ()
  | i, k + 1 => do
    closeAt i true false
    closeEach (i + 1) k

/-- The `close` of the collectives: write-close every handle when `cond` holds. The root's test
in Broadcast, Scatter and FanOut; always in Gather, AllGather and Alltoall. -/
def closeWhen (cond : Bool) : CollM Unit := do
  if cond then closeEach 0 (← get).participants.length

/-- An operation a collective does not support: `errno = EINVAL; return -1;`. -/
def unsupported : CollM Int := do
  setErrno EINVAL
  return -1

/-- `CollectiveImpl::sendrecv`, which FanIn and FanOut inherit: not a valid operation for them.
The return value, and the receive buffer, untouched. -/
def CollectiveImpl.sendrecv (recvbuff : Option Buf) : CollM (Int × Option Buf) :=
  (·, recvbuff) <$> unsupported

-- ---------------------------------------------------------------------------
-- Blocking
-- ---------------------------------------------------------------------------

/-- A blocking `probeHandle` waits for its peer; it never polls. -/
theorem probeHandle_blocking (i size : Nat) : CollM.Blocking (probeHandle i size true) := by
  unfold probeHandle
  simp only [pure_bind]
  refine .bind (.participantsAt i) fun h => .ite (.pure _) (.ite (.pure _) (.bind (.probe h) ?_))
  rintro (sz | _ | e)
  · exact .bind (.setParticipant _ _) fun _ => .ite (.bind (.closeAt _ _ _) fun _ => .pure _) (.pure _)
  · exact .bind (.closeAt _ _ _) fun _ => .pure _
  · exact .bind (.setErrno e) fun _ => .ite (.bind (.closeAt _ _ _) fun _ => .pure _)
      (.ite (.bind (.setErrno _) fun _ => .pure _) (.pure _))

theorem receiveFromHandle_blocking (i : Nat) (buff : Option Buf) (off size : Nat) :
    CollM.Blocking (receiveFromHandle i buff off size) := by
  unfold receiveFromHandle
  simp only [pure_bind]
  refine .bind (.participantsAt i) fun h => .ite
    (.bind (probeHandle_blocking i 0) fun _ => .ite (.pure _) ?_) (.ite (.pure _) ?_) <;>
  exact .bind (.participantsAt i) fun h => .ite (.bind (.setErrno _) fun _ => .pure _)
    (.bind (.setParticipant _ _) fun _ => .bind (.receive _ _) fun
      | some _ => .bind (.writePtr _ _ _) fun _ => .pure _
      | none => .pure _)

theorem sendEach_blocking (buff : Option Buf) (size : Nat) (hs : List Handle) :
    CollM.Blocking (sendEach buff size hs) := by
  induction hs with
  | nil => exact Blocking.pure _
  | cons h hs ih =>
    refine Blocking.bind (Blocking.readPtr _ _ _) fun _ => Blocking.bind (Blocking.send _ _) fun _ => ?_
    split
    · exact Blocking.bind (Blocking.setErrno _) fun _ => Blocking.pure _
    · exact ih

theorem receiveShare_blocking (recvbuff : Option Buf) (recvsize : Nat) :
    CollM.Blocking (receiveShare recvbuff recvsize) := by
  refine Blocking.bind (receiveFromHandle_blocking _ _ _ _) fun _ => ?_
  split
  · exact Blocking.bind (Blocking.closeAt _ _ _) fun _ => Blocking.pure _
  · exact Blocking.bind (Blocking.pure _) fun _ => Blocking.pure _

theorem receiveAll_blocking (recvbuff : Option Buf) (recvsize : Nat) :
    CollM.Blocking (receiveAll recvbuff recvsize) := by
  refine Blocking.bind (receiveFromHandle_blocking _ _ _ _) fun (_, _) => ?_
  dsimp only
  split
  · exact Blocking.bind (Blocking.closeAt _ _ _) fun _ => Blocking.pure _
  · exact Blocking.bind (Blocking.pure _) fun _ => Blocking.pure _

theorem closeEach_blocking (i k : Nat) : CollM.Blocking (closeEach i k) := by
  induction k generalizing i with
  | zero => exact Blocking.pure _
  | succ k ih => exact Blocking.bind (Blocking.closeAt _ _ _) fun _ => ih _

theorem closeWhen_blocking (cond : Bool) : CollM.Blocking (closeWhen cond) :=
  Blocking.ite (Blocking.bind Blocking.get fun _ => closeEach_blocking _ _) (Blocking.pure _)

-- ---------------------------------------------------------------------------
-- Sending to every handle
-- ---------------------------------------------------------------------------

/-- When every send succeeds, `sendEach` sends the same frame once on each handle, in order. -/
theorem sendEach_emits (b : Buf) (size : Nat) (s : State) (hs : List Handle) :
    Proc.Emits ((sendEach (some b) size hs).run s) (hs.map fun h => (h.peer, b.slice 0 size))
      (true, s) := by
  induction hs with
  | nil => exact .done _
  | cons h hs ih =>
    simp only [sendEach, Handle.send, bind_pure_comp, pure_bind, StateT.run_bind, run_readPtr,
      StateT.run_lift, Proc.pure_eq, Proc.send_bind, Proc.done_bind, List.map_cons]
    exact .send fun r hr => by simpa [Int.not_lt.mpr hr] using ih

/-- An unsupported operation fails with `EINVAL` and touches no handle and no connection. -/
theorem unsupported_runs {α : Type} {p : Nat} (f : Int → α) (s : State) (c : Chans) :
    Runs p (f <$> unsupported) s c (f (-1)) { s with errno := EINVAL } c :=
  Runs.of_eq rfl

-- ---------------------------------------------------------------------------
-- Closing every handle
-- ---------------------------------------------------------------------------

/-- Write-closing the handles `rest` after `pre` closes each once and sends each peer whose
handle was open for writing one end-of-stream frame, in order. -/
theorem closeEach_runs {p : Nat} (pre rest : List Handle) (s : State)
    (hs : s.participants = pre ++ rest) (c : Chans) :
    Runs p (closeEach pre.length rest.length) s c ()
      { s with participants := pre ++ rest.map fun h => { h with closedWr := true } }
      (Chans.sendAll c p ((rest.filter fun h => !h.closedWr).map fun h => (h.peer, []))) := by
  induction rest generalizing pre s c with
  | nil => exact Runs.of_eq (by simp only [closeEach, StateT.run_pure, Proc.pure_eq, List.map_nil,
      ← hs])
  | cons h rest ih =>
    have hi : s.participants[pre.length]? = some h := by
      rw [hs, List.getElem?_append_right (le_refl _), Nat.sub_self, List.getElem?_cons_zero]
    have hs' : (s.participants.set pre.length { h with closedWr := true }) =
        (pre ++ [{ h with closedWr := true }]) ++ rest := by simp only [hs, le_refl,
            List.set_append_right, Nat.sub_self, List.set_cons_zero, List.append_assoc,
            List.singleton_append]
    have := ih (pre ++ [{ h with closedWr := true }]) { s with participants := _ } hs'
    simp only [List.length_append, List.length_singleton, List.map_cons, List.append_assoc,
      List.singleton_append] at this
    unfold Runs at this ⊢
    simp only [closeEach, closeAt, StateT.run_bind, run_participantsAt hi, Proc.done_bind,
      Handle.close, Bool.or_true, Bool.or_false, StateT.run_lift, Proc.pure_eq, List.length_cons]
    cases hw : h.closedWr
    · simp only [Bool.not_false, Bool.and_self, if_true, Proc.shutdown_bind, Proc.done_bind,
        run_setParticipant, List.filter_cons, hw, List.map_cons, Chans.sendAll_cons]
      exact Proc.Run.head (Proc.next_shutdown _ _ _ _) (this _)
    · simp only [Bool.not_true, Bool.and_false, Bool.false_eq_true, if_false, Proc.done_bind,
        run_setParticipant, List.filter_cons, hw]
      exact this _

/-- A collective's `close` on a state whose handles are all open for writing: every handle is
write-closed, and every peer is sent one end-of-stream frame, in order. -/
theorem closeWhen_runs {p : Nat} (s : State) (hw : ∀ h ∈ s.participants, h.closedWr = false)
    (c : Chans) :
    Runs p (closeWhen true) s c ()
      { s with participants := s.participants.map fun h => { h with closedWr := true } }
      (Chans.sendAll c p (s.participants.map fun h => (h.peer, []))) := by
  have := closeEach_runs (p := p) [] s.participants s rfl c
  rw [List.filter_eq_self.mpr fun h hh => by simp only [hw h hh, Bool.not_false]] at this
  show Runs p (get >>= fun s => closeEach 0 s.participants.length) s c _ _ _
  exact (Runs.of_eq (m := get) (a := s) rfl).bind this

-- ---------------------------------------------------------------------------
-- Probing a handle
-- ---------------------------------------------------------------------------

variable {p i cap : Nat} {s : State} {h : Handle} {c : Chans} {l : List Msg}

/-- With a size pending, `probeHandle` reports it again and touches neither the handle nor the
connection. -/
theorem probeHandle_pending {n size : Nat} (blocking : Bool) (hi : s.participants[i]? = some h)
    (hp : h.probed = (true, n)) (hn : n ≠ 0) :
    Runs p (probeHandle i size blocking) s c (sizeofSizeT, n) s c :=
  Runs.of_eq (by simp only [probeHandle, ne_eq, ite_not, bind_pure_comp, Int.reduceNeg, map_pure,
      pure_bind, StateT.run_bind, run_participantsAt hi, Proc.done_bind, hp, ↓reduceIte, hn,
      StateT.run_pure, Proc.pure_eq])

/-- Once the read side is closed with no size pending, `probeHandle` returns 0 and touches
nothing. -/
theorem probeHandle_closed {size : Nat} (blocking : Bool) (hi : s.participants[i]? = some h)
    (hr : h.closedRd = true) (hz : h.probed.2 = 0) :
    Runs p (probeHandle i size blocking) s c (0, if h.probed.1 then 0 else size) s c := by
  cases hb : h.probed.1 <;> exact Runs.of_eq (by simp only [probeHandle, ne_eq, ite_not,
      bind_pure_comp, Int.reduceNeg, map_pure, pure_bind, StateT.run_bind, run_participantsAt hi,
      Proc.done_bind, hb, Bool.false_eq_true, ↓reduceIte, hr, StateT.run_pure, Proc.pure_eq, hz])

/-- A non-blocking probe of an idle handle with nothing arrived fails with `EWOULDBLOCK` and
changes nothing else. -/
theorem probeHandle_wouldBlock {size : Nat} (hi : s.participants[i]? = some h) (hh : h.Idle)
    (hc : c (h.peer, p) = []) :
    Runs p (probeHandle i size false) s c (-1, size) { s with errno := EWOULDBLOCK } c := by
  unfold Runs
  simp only [probeHandle, ne_eq, ite_not, Handle.probe, bind_pure_comp, Int.reduceNeg, map_pure,
    pure_bind, StateT.run_bind, run_participantsAt hi, Proc.done_bind, hh.1, Bool.false_eq_true,
    ↓reduceIte, hh.2, StateT.run_lift, Proc.pure_eq, Proc.probe_bind]
  refine Proc.Run.head (Proc.next_probe_empty _ hc) ?_
  simp only [EWOULDBLOCK, ECONNRESET, Nat.reduceEqDiff, ↓reduceIte, true_or, Int.reduceNeg,
    StateT.run_bind, run_setErrno, StateT.run_map, Proc.map_done, Proc.done_bind]
  exact Proc.Run.refl

/-- A probe of an idle handle whose next frame `f` is non-empty caches its size and takes
nothing. -/
theorem probeHandle_header {f : Bytes} {size : Nat} (blocking : Bool)
    (hi : s.participants[i]? = some h) (hh : h.Idle) (hc : c (h.peer, p) = .frame f :: l)
    (hf : f ≠ []) :
    Runs p (probeHandle i size blocking) s c (sizeofSizeT, f.length)
      { s with participants := s.participants.set i { h with probed := (true, f.length) } } c := by
  unfold Runs
  simp only [probeHandle, ne_eq, ite_not, Handle.probe, bind_pure_comp, Int.reduceNeg, map_pure,
    pure_bind, StateT.run_bind, run_participantsAt hi, Proc.done_bind, hh.1, Bool.false_eq_true,
    ↓reduceIte, hh.2, StateT.run_lift, Proc.pure_eq, Proc.probe_bind]
  refine Proc.Run.head (Proc.next_probe _ _ hc) ?_
  simp only [Msg.reply_frame, List.length_eq_zero, hf, ↓reduceIte, bind_pure_comp, StateT.run_map,
    run_setParticipant, Proc.map_done]
  exact Proc.Run.refl

/-- A probe of an idle handle whose next frame has size 0 returns 0, caches the size 0 and
closes the read side. -/
theorem probeHandle_eos {size : Nat} (blocking : Bool) (hi : s.participants[i]? = some h)
    (hh : h.Idle) (hc : c (h.peer, p) = .frame [] :: l) :
    Runs p (probeHandle i size blocking) s c (0, 0)
      { s with participants := s.participants.set i { h with probed := (true, 0), closedRd := true } }
      c := by
  have hlen := (List.getElem?_eq_some_iff.mp hi).1
  unfold Runs
  simp only [probeHandle, ne_eq, ite_not, Handle.probe, bind_pure_comp, Int.reduceNeg, map_pure,
    pure_bind, StateT.run_bind, run_participantsAt hi, Proc.done_bind, hh.1, Bool.false_eq_true,
    ↓reduceIte, hh.2, StateT.run_lift, Proc.pure_eq, Proc.probe_bind]
  refine Proc.Run.head (Proc.next_probe _ _ hc) ?_
  simp only [Msg.reply_frame, List.length_nil, ↓reduceIte, closeAt, Handle.close, Bool.false_and,
    Bool.false_eq_true, Bool.or_true, Bool.or_false, map_bind, StateT.run_bind,
    run_setParticipant, StateT.run_lift, Proc.pure_eq, Proc.done_bind, StateT.run_map,
    Proc.map_done, run_participantsAt_set _ hlen, List.set_set]
  exact Proc.Run.refl

/-- A probe of an idle handle whose connection is closed returns 0 and closes the handle both
ways, which sends the peer end-of-stream. -/
theorem probeHandle_eof {size : Nat} (blocking : Bool) (hi : s.participants[i]? = some h)
    (hh : h.Idle) (hw : h.closedWr = false) (hc : c (h.peer, p) = .eof :: l) :
    Runs p (probeHandle i size blocking) s c (0, size)
      { s with participants := s.participants.set i { h with closedRd := true, closedWr := true } }
      ((Act.push (p, h.peer) (.frame [])).apply c) := by
  obtain ⟨q, _, _, w⟩ := h
  obtain ⟨rfl, rfl⟩ := hh
  obtain rfl : w = false := hw
  unfold Runs
  simp only [probeHandle, ne_eq, ite_not, Handle.probe, bind_pure_comp, Int.reduceNeg, map_pure,
    pure_bind, StateT.run_bind, run_participantsAt hi, Proc.done_bind, Bool.false_eq_true,
    ↓reduceIte, StateT.run_lift, Proc.pure_eq, Proc.probe_bind]
  refine Proc.Run.head (Proc.next_probe _ _ hc) ?_
  simp only [Msg.reply_eof, closeAt, Handle.close, Bool.true_and, Bool.not_eq_eq_eq_not,
    Bool.not_true, Bool.or_true, map_bind, StateT.run_bind, run_participantsAt hi,
    StateT.run_lift, Proc.pure_eq, StateT.run_map, run_setParticipant, Proc.map_done, bind_assoc,
    Proc.done_bind, ↓reduceIte, Proc.shutdown_bind]
  exact Proc.Run.single (Proc.next_shutdown _ _ _ _)

/-- A probe of an idle handle whose connection was reset returns 0 with `errno` set to
`ECONNRESET`, and closes the handle both ways. -/
theorem probeHandle_reset {size : Nat} (blocking : Bool) (hi : s.participants[i]? = some h)
    (hh : h.Idle) (hw : h.closedWr = false) (hc : c (h.peer, p) = .reset :: l) :
    Runs p (probeHandle i size blocking) s c (0, size)
      { s with
        errno := ECONNRESET
        participants := s.participants.set i { h with closedRd := true, closedWr := true } }
      ((Act.push (p, h.peer) (.frame [])).apply c) := by
  obtain ⟨q, _, _, w⟩ := h
  obtain ⟨rfl, rfl⟩ := hh
  obtain rfl : w = false := hw
  unfold Runs
  simp only [probeHandle, ne_eq, ite_not, Handle.probe, bind_pure_comp, Int.reduceNeg, map_pure,
    pure_bind, StateT.run_bind, run_participantsAt hi, Proc.done_bind, Bool.false_eq_true,
    ↓reduceIte, StateT.run_lift, Proc.pure_eq, Proc.probe_bind]
  refine Proc.Run.head (Proc.next_probe _ _ hc) ?_
  simp only [Msg.reply_reset, ↓reduceIte, closeAt, Handle.close, Bool.true_and,
    Bool.not_eq_eq_eq_not, Bool.not_true, Bool.or_true, map_bind, StateT.run_bind, run_setErrno,
    StateT.run_lift, Proc.pure_eq, StateT.run_map, run_setParticipant, Proc.map_done, bind_assoc,
    Proc.done_bind, run_participantsAt (s := { s with errno := ECONNRESET }) hi, Proc.shutdown_bind]
  exact Proc.Run.single (Proc.next_shutdown _ _ _ _)

/-- On an idle handle, a blocking `probeHandle` starts with a blocking probe of the
connection. -/
theorem probeHandle_starts {size : Nat} (hi : s.participants[i]? = some h) (hh : h.Idle) :
    ∃ k, (probeHandle i size true).run s = .probe h.peer true k := by
  simp only [probeHandle, ne_eq, ite_not, Handle.probe, bind_pure_comp, Int.reduceNeg, map_pure,
    pure_bind, StateT.run_bind, run_participantsAt hi, Proc.done_bind, hh.1, Bool.false_eq_true,
    ↓reduceIte, hh.2, StateT.run_lift, Proc.pure_eq, Proc.probe_bind, Proc.probe.injEq, true_and,
    exists_eq']

-- ---------------------------------------------------------------------------
-- Receiving on a handle
-- ---------------------------------------------------------------------------

/-- On an idle handle, `receiveFromHandle` starts with a blocking probe of the connection. -/
theorem receiveFromHandle_starts (buff : Option Buf) (off : Nat)
    (hi : s.participants[i]? = some h) (hh : h.Idle) :
    ∃ k, (receiveFromHandle i buff off cap).run s = .probe h.peer true k := by
  have ⟨k, hk⟩ : ∃ k, (probeHandle i 0 true).run s = _ := probeHandle_starts hi hh
  simp only [receiveFromHandle, Bool.not_eq_eq_eq_not, Bool.not_true, gt_iff_lt, Int.reduceNeg,
    bind_pure_comp, pure_bind, StateT.run_bind, run_participantsAt hi, Proc.done_bind, hh.1,
    ↓reduceIte, hk, Proc.probe_bind, Proc.probe.injEq, true_and, exists_eq']

/-- On an idle handle whose next frame `f` is non-empty and fits, `receiveFromHandle` takes
exactly that frame, stores it at `buff + off`, and leaves the handle idle. -/
theorem receiveFromHandle_frame {f : Bytes} (buff : Buf) (off : Nat) (hi : s.participants[i]? = some h)
    (hh : h.Idle) (hc : c (h.peer, p) = .frame f :: l) (hf : f ≠ []) (hcap : f.length ≤ cap) :
    Runs p (receiveFromHandle i (some buff) off cap) s c (f.length, some (buff.write off f)) s
      ((Act.pop (h.peer, p)).apply c) := by
  have hlen := (List.getElem?_eq_some_iff.mp hi).1
  have : Runs p (probeHandle i 0 true) s c _ _ _ := probeHandle_header true hi hh hc hf
  obtain ⟨q, _, _, w⟩ := h
  obtain ⟨rfl, rfl⟩ := hh
  unfold Runs at this ⊢
  simp only [receiveFromHandle, Bool.not_eq_eq_eq_not, Bool.not_true, gt_iff_lt, Int.reduceNeg,
    bind_pure_comp, pure_bind, StateT.run_bind, run_participantsAt hi, Proc.done_bind, ↓reduceIte]
  refine (Proc.Run.bind _ this).trans ?_
  simp only [sizeofSizeT, Int.reduceNeg, Handle.receive, Proc.done_bind, Int.reduceLE, ↓reduceIte,
    StateT.run_bind, run_participantsAt_set _ hlen, Nat.not_lt.mpr hcap, run_setParticipant,
    List.set_set, StateT.run_lift, Proc.pure_eq, Proc.receive_bind]
  refine Proc.Run.head (Proc.next_receive _ _ hc) ?_
  simp only [hcap, Nat.min_eq_left, List.take_length, StateT.run_map, run_writePtr, Proc.map_done]
  rw [set_self hi]
  exact Proc.Run.refl

/-- On an idle handle whose next frame has size 0, `receiveFromHandle` reads end-of-stream: it
returns 0, caches the size 0, closes the read side, and takes nothing. -/
theorem receiveFromHandle_eos (buff : Option Buf) (off : Nat) (hi : s.participants[i]? = some h) (hh : h.Idle)
    (hc : c (h.peer, p) = .frame [] :: l) :
    Runs p (receiveFromHandle i buff off cap) s c (0, buff)
      { s with participants := s.participants.set i { h with probed := (true, 0), closedRd := true } }
      c := by
  have : Runs p (probeHandle i 0 true) s c _ _ _ := probeHandle_eos true hi hh hc
  unfold Runs at this ⊢
  simp only [receiveFromHandle, Bool.not_eq_eq_eq_not, Bool.not_true, gt_iff_lt, Int.reduceNeg,
    bind_pure_comp, pure_bind, StateT.run_bind, run_participantsAt hi, Proc.done_bind, hh.1,
    ↓reduceIte]
  exact (Proc.Run.bind _ this).trans (by simpa using Proc.Run.refl)

/-- On an idle handle whose next frame `f` is larger than `cap`, `receiveFromHandle` fails with
`ENOMEM`, takes nothing, and leaves the size of `f` pending. -/
theorem receiveFromHandle_nomem_idle {f : Bytes} (buff : Option Buf) (off : Nat)
    (hi : s.participants[i]? = some h) (hh : h.Idle) (hc : c (h.peer, p) = .frame f :: l)
    (hf : f ≠ []) (hcap : cap < f.length) :
    Runs p (receiveFromHandle i buff off cap) s c (-1, buff)
      { s with
        participants := s.participants.set i { h with probed := (true, f.length) }
        errno := ENOMEM } c := by
  have hlen := (List.getElem?_eq_some_iff.mp hi).1
  have : Runs p (probeHandle i 0 true) s c _ _ _ := probeHandle_header true hi hh hc hf
  unfold Runs at this ⊢
  simp only [receiveFromHandle, Bool.not_eq_eq_eq_not, Bool.not_true, gt_iff_lt, Int.reduceNeg,
    bind_pure_comp, pure_bind, StateT.run_bind, run_participantsAt hi, Proc.done_bind, hh.1,
    ↓reduceIte]
  refine (Proc.Run.bind _ this).trans ?_
  simp only [sizeofSizeT, Int.reduceNeg, Proc.done_bind, Int.reduceLE, ↓reduceIte,
    StateT.run_bind, run_participantsAt_set _ hlen, hcap, StateT.run_map, run_setErrno,
    Proc.map_done]
  exact Proc.Run.refl

/-- On an idle handle whose connection is closed, `receiveFromHandle` returns 0 and closes the
handle both ways. -/
theorem receiveFromHandle_eof (buff : Option Buf) (off : Nat) (hi : s.participants[i]? = some h)
    (hh : h.Idle) (hw : h.closedWr = false) (hc : c (h.peer, p) = .eof :: l) :
    Runs p (receiveFromHandle i buff off cap) s c (0, buff)
      { s with participants := s.participants.set i { h with closedRd := true, closedWr := true } }
      ((Act.push (p, h.peer) (.frame [])).apply c) := by
  have : Runs p (probeHandle i 0 true) s c _ _ _ := probeHandle_eof true hi hh hw hc
  obtain ⟨q, _, _, w⟩ := h
  obtain ⟨rfl, rfl⟩ := hh
  obtain rfl : w = false := hw
  unfold Runs at this ⊢
  simp only [receiveFromHandle, Bool.not_eq_eq_eq_not, Bool.not_true, gt_iff_lt, Int.reduceNeg,
    bind_pure_comp, pure_bind, StateT.run_bind, run_participantsAt hi, Proc.done_bind, ↓reduceIte]
  exact (Proc.Run.bind _ this).trans (by simpa using Proc.Run.refl)

/-- On an idle handle whose connection was reset, `receiveFromHandle` returns 0 with `errno` set
to `ECONNRESET`, and closes the handle both ways. -/
theorem receiveFromHandle_reset (buff : Option Buf) (off : Nat) (hi : s.participants[i]? = some h)
    (hh : h.Idle) (hw : h.closedWr = false) (hc : c (h.peer, p) = .reset :: l) :
    Runs p (receiveFromHandle i buff off cap) s c (0, buff)
      { s with
        errno := ECONNRESET
        participants := s.participants.set i { h with closedRd := true, closedWr := true } }
      ((Act.push (p, h.peer) (.frame [])).apply c) := by
  have : Runs p (probeHandle i 0 true) s c _ _ _ := probeHandle_reset true hi hh hw hc
  obtain ⟨q, _, _, w⟩ := h
  obtain ⟨rfl, rfl⟩ := hh
  obtain rfl : w = false := hw
  unfold Runs at this ⊢
  simp only [receiveFromHandle, Bool.not_eq_eq_eq_not, Bool.not_true, gt_iff_lt, Int.reduceNeg,
    bind_pure_comp, pure_bind, StateT.run_bind, run_participantsAt hi, Proc.done_bind, ↓reduceIte]
  exact (Proc.Run.bind _ this).trans (by simpa using Proc.Run.refl)

/-- With the size `f.length` of the next frame `f` pending and room for it, `receiveFromHandle`
takes exactly that frame, stores it at `buff + off`, and leaves the handle idle. -/
theorem receiveFromHandle_pending {f : Bytes} (buff : Buf) (off : Nat)
    (hi : s.participants[i]? = some h) (hp : h.probed = (true, f.length))
    (hr : h.closedRd = false) (hc : c (h.peer, p) = .frame f :: l) (hcap : f.length ≤ cap) :
    Runs p (receiveFromHandle i (some buff) off cap) s c (f.length, some (buff.write off f))
      { s with participants := s.participants.set i { h with probed := (false, 0) } }
      ((Act.pop (h.peer, p)).apply c) := by
  unfold Runs
  simp only [receiveFromHandle, Bool.not_eq_eq_eq_not, Bool.not_true, gt_iff_lt, Int.reduceNeg,
    bind_pure_comp, Handle.receive, pure_bind, StateT.run_bind, run_participantsAt hi,
    Proc.done_bind, hp, Bool.true_eq_false, ↓reduceIte, hr, Bool.false_eq_true,
    Nat.not_lt.mpr hcap, run_setParticipant, StateT.run_lift, Proc.pure_eq, Proc.receive_bind]
  refine Proc.Run.head (Proc.next_receive _ _ hc) ?_
  simp only [hcap, Nat.min_eq_left, List.take_length, StateT.run_map, run_writePtr, Proc.map_done]
  exact Proc.Run.refl

/-- With a pending size larger than `cap`, `receiveFromHandle` fails with `ENOMEM` and changes
nothing else. -/
theorem receiveFromHandle_nomem {n : Nat} (buff : Option Buf) (off : Nat)
    (hi : s.participants[i]? = some h) (hp : h.probed = (true, n)) (hr : h.closedRd = false)
    (hcap : cap < n) :
    Runs p (receiveFromHandle i buff off cap) s c (-1, buff) { s with errno := ENOMEM } c :=
  Runs.of_eq (by simp only [receiveFromHandle, Bool.not_eq_eq_eq_not, Bool.not_true, gt_iff_lt,
      Int.reduceNeg, bind_pure_comp, pure_bind, StateT.run_bind, run_participantsAt hi,
      Proc.done_bind, hp, Bool.true_eq_false, ↓reduceIte, hr, Bool.false_eq_true, hcap,
      StateT.run_map, run_setErrno, Proc.map_done])

/-- Once the read side is closed, `receiveFromHandle` returns 0 and touches nothing. -/
theorem receiveFromHandle_closed (buff : Option Buf) (off : Nat)
    (hi : s.participants[i]? = some h) (hr : h.closedRd = true) :
    Runs p (receiveFromHandle i buff off cap) s c (0, buff) s c := by
  cases hb : h.probed.1
  · exact Runs.of_eq (by simp only [receiveFromHandle, Bool.not_eq_eq_eq_not, Bool.not_true,
      probeHandle, ne_eq, ite_not, bind_pure_comp, Int.reduceNeg, map_pure, pure_bind, gt_iff_lt,
      bind_assoc, StateT.run_bind, run_participantsAt hi, Proc.done_bind, hb, ↓reduceIte,
      Bool.false_eq_true, hr, StateT.run_pure, Proc.pure_eq, Int.le_refl])
  · exact Runs.of_eq (by simp only [receiveFromHandle, Bool.not_eq_eq_eq_not, Bool.not_true,
      gt_iff_lt, Int.reduceNeg, bind_pure_comp, pure_bind, StateT.run_bind, run_participantsAt hi,
      Proc.done_bind, hb, Bool.true_eq_false, ↓reduceIte, hr, StateT.run_pure, Proc.pure_eq])

/-- At a size-0 frame the broadcast and scatter non-roots return 0 and close their handle both
ways. -/
theorem receiveShare_eos (buff : Option Buf) (hi : s.participants[0]? = some h) (hh : h.Idle)
    (hw : h.closedWr = false) (hc : c (h.peer, p) = .frame [] :: l) :
    Runs p (receiveShare buff cap) s c (0, buff)
      { s with
        participants := s.participants.set 0
          { h with probed := (true, 0), closedRd := true, closedWr := true } }
      ((Act.push (p, h.peer) (.frame [])).apply c) := by
  have hlen := (List.getElem?_eq_some_iff.mp hi).1
  refine (receiveFromHandle_eos buff 0 hi hh hc).bind ?_
  unfold Runs
  simp only [↓reduceIte, closeAt, Handle.close, Bool.true_and, Bool.not_eq_eq_eq_not,
    Bool.not_true, Bool.or_false, Bool.or_true, bind_pure_comp, map_bind, hw, StateT.run_bind,
    run_participantsAt_set _ hlen, StateT.run_lift, Proc.pure_eq, StateT.run_map,
    run_setParticipant, Proc.map_done, bind_assoc, Proc.done_bind, List.set_set, Proc.shutdown_bind]
  exact Proc.Run.single (Proc.next_shutdown _ _ _ _)

/-- A non-root takes the root's frame `f` when it has room for it. -/
theorem receiveShare_frame {f : Bytes} (buff : Buf) (hi : s.participants[0]? = some h)
    (hh : h.Idle) (hc : c (h.peer, p) = .frame f :: l) (hf : f ≠ []) (hcap : f.length ≤ cap) :
    Runs p (receiveShare (some buff) cap) s c (f.length, some (buff.write 0 f)) s
      ((Act.pop (h.peer, p)).apply c) :=
  (receiveFromHandle_frame buff 0 hi hh hc hf hcap).bind
    (Runs.of_eq (by simp only [Bytes.length_ne_zero hf, ↓reduceIte, bind_pure_comp, map_pure,
        StateT.run_pure, Proc.pure_eq]))

/-- A non-root whose buffer has no room for the root's frame `f` fails with `ENOMEM`; the call
does not close the handle, and the size of `f` stays pending with `f` on the connection. -/
theorem receiveShare_nomem {f : Bytes} (buff : Option Buf) (hi : s.participants[0]? = some h)
    (hh : h.Idle) (hc : c (h.peer, p) = .frame f :: l) (hf : f ≠ []) (hcap : cap < f.length) :
    Runs p (receiveShare buff cap) s c (-1, buff)
      { s with
        participants := s.participants.set 0 { h with probed := (true, f.length) }
        errno := ENOMEM } c :=
  (receiveFromHandle_nomem_idle buff 0 hi hh hc hf hcap).bind (Runs.of_eq (by simp))

/-- A non-root whose handle still holds the size of the frame `f` a failed call left pending
takes `f` when it has room for it. -/
theorem receiveShare_pending {f : Bytes} (buff : Buf) (hi : s.participants[0]? = some h)
    (hp : h.probed = (true, f.length)) (hr : h.closedRd = false)
    (hc : c (h.peer, p) = .frame f :: l) (hf : f ≠ []) (hcap : f.length ≤ cap) :
    Runs p (receiveShare (some buff) cap) s c (f.length, some (buff.write 0 f))
      { s with participants := s.participants.set 0 { h with probed := (false, 0) } }
      ((Act.pop (h.peer, p)).apply c) :=
  (receiveFromHandle_pending buff 0 hi hp hr hc hcap).bind
    (Runs.of_eq (by simp only [Bytes.length_ne_zero hf, ↓reduceIte, bind_pure_comp, map_pure,
        StateT.run_pure, Proc.pure_eq]))

/-- A non-root takes the root's frame `f` into its whole receive buffer. -/
theorem receiveAll_frame {f : Bytes} (buff : Buf) (hi : s.participants[0]? = some h)
    (hh : h.Idle) (hc : c (h.peer, p) = .frame f :: l) (hf : f ≠ []) (hcap : f.length ≤ cap) :
    Runs p (receiveAll (some buff) cap) s c (some (buff.write 0 f)) s
      ((Act.pop (h.peer, p)).apply c) :=
  (receiveFromHandle_frame buff 0 hi hh hc hf hcap).bind
    (Runs.of_eq (by simp only [Bytes.length_ne_zero hf, ↓reduceIte, bind_pure_comp, map_pure,
        StateT.run_pure, Proc.pure_eq]))

/-- At an end of stream the rest of the call returns `ret`, the buffer untouched and the handle
closed both ways. -/
theorem receiveRest_eos (buff : Option Buf) (ret : Nat) (hi : s.participants[0]? = some h)
    (hh : h.Idle) (hw : h.closedWr = false) (hc : c (h.peer, p) = .frame [] :: l) :
    Runs p (receiveRest buff cap ret) s c (ret, buff)
      { s with
        participants := s.participants.set 0
          { h with probed := (true, 0), closedRd := true, closedWr := true } }
      ((Act.push (p, h.peer) (.frame [])).apply c) := by
  have hlen := (List.getElem?_eq_some_iff.mp hi).1
  refine ((receiveFromHandle_eos buff 0 hi hh hc).bind ?_).bind (Runs.pure' _ _ _)
  unfold Runs
  simp only [↓reduceIte, closeAt, Handle.close, Bool.true_and, Bool.not_eq_eq_eq_not,
    Bool.not_true, Bool.or_false, Bool.or_true, bind_pure_comp, map_bind, hw, StateT.run_bind,
    run_participantsAt_set _ hlen, StateT.run_lift, Proc.pure_eq, StateT.run_map,
    run_setParticipant, Proc.map_done, bind_assoc, Proc.done_bind, List.set_set, Proc.shutdown_bind]
  exact Proc.Run.single (Proc.next_shutdown _ _ _ _)

/-- At a frame larger than the buffer the rest of the call ignores `ENOMEM` and returns `ret`, the
buffer untouched. -/
theorem receiveRest_nomem {f : Bytes} (buff : Buf) (ret : Nat) (hi : s.participants[0]? = some h)
    (hh : h.Idle) (hc : c (h.peer, p) = .frame f :: l) (hf : f ≠ []) (hcap : cap < f.length) :
    Runs p (receiveRest (some buff) cap ret) s c (ret, some buff)
      { s with
        participants := s.participants.set 0 { h with probed := (true, f.length) }
        errno := ENOMEM } c :=
  ((receiveFromHandle_nomem_idle (some buff) 0 hi hh hc hf hcap).bind
    (Runs.of_eq (by simp))).bind (Runs.pure' _ _ _)

/-- The rest of a non-root's call: the root's frame `f` into its receive buffer, then `ret`. -/
theorem receiveRest_frame {f : Bytes} (buff : Buf) (ret : Nat) (hi : s.participants[0]? = some h)
    (hh : h.Idle) (hc : c (h.peer, p) = .frame f :: l) (hf : f ≠ []) (hcap : f.length ≤ cap) :
    Runs p (receiveRest (some buff) cap ret) s c (ret, some (buff.write 0 f)) s
      ((Act.pop (h.peer, p)).apply c) :=
  (receiveAll_frame buff hi hh hc hf hcap).bind (Runs.pure' _ _ _)
