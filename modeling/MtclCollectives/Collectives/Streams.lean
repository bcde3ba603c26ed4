-- SUMMARY: FanInGeneric and FanOutGeneric: the streaming collectives' probe, receive, send and close, a fan-in caller that drains the group, and what a closed connection does to it.
import MtclCollectives.Framing
import MtclCollectives.Partition
import Mathlib.Data.Int.CardIntervalMod

/-!
# Fan-in and fan-out

The streaming collectives: a fan-in root scans its handles with non-blocking probes and drops
a handle at its end of stream; a fan-out root hands its messages to its handles in turn. The
blocking scan is bounded by `fuel` turns, past which the model crashes.
-/

open CollM

-- ---------------------------------------------------------------------------
-- The handles' own probe
-- ---------------------------------------------------------------------------

/-- `h->probe(size, blocking)` on the handle itself: `sizeof(size_t)` and the size for a header,
`0` at the end of the connection, `-1` with `errno` on a failure. -/
def probeRaw (h : Handle) (size : Nat) (blocking : Bool) : CollM (Int × Nat) := do
  match ← StateT.lift (h.probe blocking) with
  | .header sz => return (sizeofSizeT, sz)
  | .eof => return (0, size)
  | .fail e =>
    setErrno e
    return (-1, size)

/-- `h->receive(buff, size)` into `buff`: the return value and the buffer after the call. -/
def receiveRaw (h : Handle) (buff : Option Buf) (size : Nat) : CollM (Int × Option Buf) := do
  match ← StateT.lift (h.receive size) with
  | some d => return (d.length, ← writePtr buff 0 d)
  | none => return (-1, buff)

/-- Modelled from the spec (§4.8, §4.9): at most `n` rounds of `probe(size, true)` then
`receive(buff, cap)` until the end of stream, then `last`; the payloads, in order. -/
def takeFrames (probe : CollM (Int × Nat)) (receive : CollM (Int × Option Buf)) (buff : Buf)
    (last : CollM (List Bytes)) : Nat → CollM (List Bytes)
  | 0 => last
  | n + 1 => do
    let (res, size) ← probe
    if res ≤ 0 ∨ size = 0 then
      return []
    let (r, b) ← receive
    if r ≤ 0 then
      return []
    let rest ← takeFrames probe receive buff last n
    return (b.getD buff).slice 0 r.toNat :: rest

namespace FanInGeneric

-- ---------------------------------------------------------------------------
-- The code
-- ---------------------------------------------------------------------------

/-- The end of a turn of the scan, `iter++; if (iter == participants.end()) { if (blocking)
iter = participants.begin(); else break; }`, then the next turn `k iter res size`. -/
def advance (blocking : Bool) (k : Nat → Int → Nat → CollM (Int × Nat)) (iter : Nat) (res : Int)
    (size : Nat) : CollM (Int × Nat) := do
  if iter + 1 = (← get).participants.length then
    if blocking then k 0 res size else return (res, size)
  else k (iter + 1) res size

/-- The loop `while (res == -1 && !participants.empty())` of `FanInGeneric::probe` at
`participants[iter]`, for at most `fuel` more turns. -/
def scan (blocking : Bool) (fuel iter : Nat) (res : Int) (size : Nat) : CollM (Int × Nat) := do
  if !(res = -1 ∧ (← get).participants ≠ []) then
    return (res, size)
  match fuel with
  | 0 => crash
  | fuel + 1 =>
    let h ← participantsAt iter
    let (res, size) ← probeRaw h size false
    if res > 0 ∧ size = 0 then
      modify fun s => { s with participants := s.participants.eraseIdx iter }
      let _ ← StateT.lift (h.close true true)
      if iter = (← get).participants.length then
        if blocking then scan blocking fuel 0 (-1) size else return (-1, size)
      else advance blocking (scan blocking fuel) iter (-1) size
    else
      if res > 0 then
        modify fun s => { s with probedIdx := iter }
        setParticipant iter { h with probed := (true, size) }
      advance blocking (scan blocking fuel) iter res size

/-- `FanInGeneric::probe(size, blocking)`, its loop bounded by `fuel` turns: the return value
and `size` after the call. With no handle left, the group's end of stream. -/
def probe (fuel size : Nat) (blocking : Bool) : CollM (Int × Nat) := do
  let (res, size) ← scan blocking fuel 0 (-1) size
  if (← get).participants = [] then
    return (sizeofSizeT, 0)
  return (res, size)

/-- `FanInGeneric::receive(buff, size)`: the return value and the buffer after the call.
`participants.at(probed_idx)` throws when nothing was probed (`probed_idx = -1`). -/
def receive (buff : Option Buf) (size : Nat) : CollM (Int × Option Buf) := do
  let idx := (← get).probedIdx
  if idx < 0 then crash
  let h ← participantsAt idx.toNat
  let (r, buff) ← receiveRaw h buff size
  if r ≤ 0 then
    return (-1, buff)
  setParticipant idx.toNat { h with probed := (false, 0) }
  modify fun s => { s with probedIdx := -1 }
  return (r, buff)

/-- The loop `for (auto& h : participants) if ((r = h->send(buff, size)) < 0) return r;` over
the handles `hs`: the first negative result, or `none`. -/
def sendEach (buff : Option Buf) (size : Nat) : List Handle → CollM (Option Int)
  | [] => pure none
  | h :: hs => do
    let r ← StateT.lift (h.send (← readPtr buff 0 size))
    if r < 0 then return some r
    sendEach buff size hs

/-- `FanInGeneric::send(buff, size)`, a non-root's: every handle sends the buffer. -/
def send (buff : Option Buf) (size : Nat) : CollM Int := do
  match ← sendEach buff size (← get).participants with
  | some r => return r
  | none => return size

/-- `FanInGeneric::close(close_wr, close_rd)`: a non-root closes the write side of its handle,
which its root reads as end of stream; the root does nothing. -/
def close (root : Bool) : CollM Unit :=
  if root then pure () else closeAt 0 true false

-- ---------------------------------------------------------------------------
-- A caller that drains the group
-- ---------------------------------------------------------------------------

/-- Modelled from the spec (§8): a fan-in root that takes frames until the group's end of
stream, at most `n` rounds, each probe with at most `fuel` turns. -/
def drain (fuel cap : Nat) (buff : Buf) : Nat → CollM (List Bytes) :=
  takeFrames (probe fuel 0 true) (receive (some buff) cap) buff crash

-- ---------------------------------------------------------------------------
-- A closed connection ends the scan
-- ---------------------------------------------------------------------------

variable {p : Nat} {s : State} {h : Handle} {c : Chans} {l : List Msg}

theorem probeRaw_eof (hc : c (h.peer, p) = .eof :: l) (size : Nat) (blocking : Bool) :
    Runs p (probeRaw h size blocking) s c (0, size) s c := by
  unfold Runs
  simp only [probeRaw, Handle.probe, StateT.run_bind, StateT.run_lift, Proc.probe_bind]
  exact Proc.Run.single (Proc.next_probe _ _ hc)

/-- The scan stops as soon as `res` is not `-1`. -/
theorem run_scan_of_ne {res : Int} (hres : res ≠ -1) (blocking : Bool) (fuel iter size : Nat)
    (s : State) : (scan blocking fuel iter res size).run s = .done ((res, size), s) := by
  unfold scan; simp [hres]

theorem run_advance_of_ne {res : Int} (hres : res ≠ -1) (blocking : Bool)
    (fuel iter size : Nat) (s : State) :
    (advance blocking (scan blocking fuel) iter res size).run s = .done ((res, size), s) := by
  unfold advance
  by_cases h₁ : iter + 1 = s.participants.length <;> cases blocking <;>
    simp [h₁, run_scan_of_ne hres]

/-- When the first handle's connection is closed, the scan stops at it with `0`, whatever the
other handles hold. -/
theorem scan_eof (hi : s.participants[0]? = some h) (hc : c (h.peer, p) = .eof :: l)
    (blocking : Bool) (fuel size : Nat) :
    Runs p (scan blocking (fuel + 1) 0 (-1) size) s c (0, size) s c := by
  have hne : s.participants ≠ [] := fun h' => by simp [h'] at hi
  unfold Runs scan
  simp only [Int.reduceNeg, ne_eq, true_and, decide_not, Bool.not_not, decide_eq_true_eq,
    probeRaw, Handle.probe, bind_pure_comp, gt_iff_lt, List.eraseIdx_zero, Nat.cast_zero, pure_bind,
    bind_assoc, StateT.run_bind, StateT.run_get, Proc.pure_eq, Proc.done_bind, hne, ↓reduceIte,
    run_participantsAt hi, StateT.run_lift, Proc.probe_bind]
  refine Proc.Run.head (Proc.next_probe _ _ hc) ?_
  simp only [Msg.reply_eof, StateT.run_pure, Proc.pure_eq, Int.reduceNeg, Proc.done_bind,
    lt_self_iff_false, false_and, ↓reduceIte, ne_eq, zero_eq_neg, one_ne_zero, not_false_eq_true,
    run_advance_of_ne]
  exact Proc.Run.refl

/-- When the first handle's connection is closed, `probe` reports the group's end of stream at
once. -/
theorem probe_eof (hi : s.participants[0]? = some h) (hc : c (h.peer, p) = .eof :: l)
    (fuel size : Nat) (blocking : Bool) :
    Runs p (probe (fuel + 1) size blocking) s c (0, size) s c := by
  have hne : s.participants ≠ [] := fun h' => by simp [h'] at hi
  exact (scan_eof hi hc blocking fuel size).bind (Runs.of_eq (by simp [hne]))

/-- When peer `1`'s connection is closed, the first probe returns `0` and the caller stops with
nothing, peer `2`'s message never taken. -/
theorem drain_stops_early (m : Bytes) (fuel cap n : Nat) (buff : Buf) :
    let s : State := { participants := [.fresh 1, .fresh 2] }
    let c : Chans := fun ch =>
      if ch = (1, 0) then [.eof] else if ch = (2, 0) then [.frame m, .frame []] else []
    Runs 0 (drain (fuel + 1) cap buff (n + 1)) s c [] s c := by
  intro s c
  rw [drain]
  exact (probe_eof (p := 0) (s := s) (c := c) (h := .fresh 1) (l := []) rfl rfl fuel 0 true).bind
    (Runs.of_eq (by simp))

/-- After erasing peer `1`'s handle at its end of stream, the non-blocking scan steps past peer
`2`'s handle, which moved into its place, and returns `-1`. -/
theorem probe_skips_after_eos (x : UInt8) (xs : Bytes) (fuel size : Nat) :
    let s : State := { participants := [.fresh 1, .fresh 2] }
    let c : Chans := fun ch =>
      if ch = (1, 0) then [.frame []] else if ch = (2, 0) then [.frame (x :: xs)] else []
    let s' : State := { participants := [.fresh 2] }
    let c' : Chans := (Act.push (0, 1) (.frame [])).apply c
    Runs 0 (probe (fuel + 1) size false) s c (-1, 0) s' c' ∧
      Runs 0 (probeRaw (.fresh 2) 0 false) s' c' (sizeofSizeT, (x :: xs).length) s' c' := by
  intro s c s' c'
  constructor
  · unfold Runs
    simp only [probe, scan, Int.reduceNeg, ne_eq, true_and, decide_not, Bool.not_not,
      decide_eq_true_eq, probeRaw, Handle.probe, bind_pure_comp, gt_iff_lt, List.eraseIdx_zero,
      Bool.false_eq_true, ↓reduceIte, Nat.cast_zero, pure_bind, bind_assoc, Prod.mk.eta, map_pure,
      StateT.run_bind, StateT.run_get, Proc.pure_eq, Proc.done_bind, reduceCtorEq, List.length_cons,
      List.length_singleton, Nat.reduceAdd, Nat.ofNat_pos, List.getElem?_eq_getElem,
      List.getElem_cons_zero, Option.some.injEq, run_participantsAt, StateT.run_lift, Proc.probe_bind,
      Handle.fresh_peer, Handle.fresh_closedRd, Handle.fresh_closedWr, s]
    refine Proc.Run.head (Proc.next_probe (m := .frame []) (l := []) _ _ (by simp [c])) ?_
    simp only [Msg.reply_frame, List.length_nil, Int.reduceNeg, StateT.run_pure, Proc.pure_eq,
      Handle.close, Handle.fresh_closedWr, Bool.not_false, Bool.and_self, ↓reduceIte,
      Handle.fresh_peer, Handle.fresh_probed, Handle.fresh_closedRd, Bool.or_true, Proc.done_bind,
      and_true]
    refine Proc.Run.head (Proc.next_shutdown _ _ _ _) ?_
    simp only [List.tail_cons, Int.reduceNeg, Proc.pure_eq, advance, zero_add, Bool.false_eq_true,
      ↓reduceIte]
    exact Proc.Run.refl
  · unfold Runs
    simp only [probeRaw, Handle.probe, StateT.run_bind, StateT.run_lift, Proc.probe_bind]
    exact Proc.Run.single (Proc.next_probe (m := .frame (x :: xs)) (l := []) _ _
      (by simp [c', c, Act.apply, Act.edit]))

end FanInGeneric

namespace FanOutGeneric

/-- `FanOutGeneric::probe(size, blocking)`: probe `participants[0]`, and at its end of stream
`participants.pop_back()` and close the probed handle. -/
def probe (size : Nat) (blocking : Bool) : CollM (Int × Nat) := do
  if (← get).participants = [] then
    setErrno ECONNRESET
    return (-1, size)
  let h ← participantsAt 0
  let (res, size) ← probeRaw h size blocking
  let mut h := h
  if res > 0 ∧ size = 0 then
    modify fun s => { s with participants := s.participants.dropLast }
    h ← StateT.lift (h.close true true)
  if res > 0 then
    h := { h with probed := (true, size) }
  if (← get).participants ≠ [] then
    setParticipant 0 h
  return (res, size)

/-- `FanOutGeneric::send(buff, size)`: send on `participants.at(current)`, keep the result in
`int res`, and `++current %= count`. -/
def send (buff : Option Buf) (size : Nat) : CollM Int := do
  let s ← get
  let count := s.participants.length
  let h ← participantsAt s.current
  let res := toInt32 (← StateT.lift (h.send (← readPtr buff 0 size)))
  modify fun s => { s with current := (s.current + 1) % count }
  return res

/-- `FanOutGeneric::receive(buff, size)`: receive on `participants[0]` and clear its probed
size. -/
def receive (buff : Option Buf) (size : Nat) : CollM (Int × Option Buf) := do
  let h ← participantsAt 0
  let r ← receiveRaw h buff size
  setParticipant 0 { h with probed := (false, 0) }
  return r

/-- `FanOutGeneric::close(close_wr, close_rd)`: the root closes the write side of every handle;
a non-root does nothing. -/
def close (root : Bool) : CollM Unit :=
  closeWhen root

-- ---------------------------------------------------------------------------
-- Round-robin sends
-- ---------------------------------------------------------------------------

/-- One send: the message goes to the handle under the cursor, whatever the send returns, and
the cursor moves on by one, modulo the number of handles. -/
theorem run_send (b : Buf) (size : Nat) {s : State} {h : Handle}
    (hi : s.participants[s.current]? = some h) :
    (send (some b) size).run s = .send h.peer (b.slice 0 size) fun r =>
      .done (toInt32 r, { s with current := (s.current + 1) % s.participants.length }) := by
  simp [send, run_participantsAt hi, Handle.send]

/-- From a cursor `o % n`, the `j`-th send goes to `participants[(o + j) % n]` and the cursor ends at
`(o + k) % n`. -/
theorem sends_from (msgs : List (Buf × Nat)) (o : Nat) (s : State)
    (hn : 0 < s.participants.length) (hc : s.current = o % s.participants.length) :
    Proc.Sends (fun x => x.2 = { s with current := (o + msgs.length) % s.participants.length })
      ((msgs.mapM fun m => send (some m.1) m.2).run s)
      ((List.range' o msgs.length).zipWith (fun j m =>
        ((s.participants.get ⟨j % s.participants.length, Nat.mod_lt _ hn⟩).peer, m.1.slice 0 m.2))
        msgs) := by
  induction msgs generalizing o s with
  | nil => exact .done (by simp [← hc])
  | cons m msgs ih =>
    have hi : s.participants[s.current]? = some (s.participants.get ⟨o % _, Nat.mod_lt _ hn⟩) := by
      simp [hc]
    have hc' : (s.current + 1) % s.participants.length = (o + 1) % s.participants.length := by
      rw [hc, Nat.add_mod, Nat.mod_mod, ← Nat.add_mod]
    simp only [List.mapM_cons, StateT.run_bind, run_send _ _ hi, Proc.send_bind, Proc.done_bind,
      List.length_cons, List.range'_succ, List.zipWith_cons_cons]
    refine .send fun r => ?_
    have := ih (o + 1) { s with current := (s.current + 1) % s.participants.length } hn hc'
    rw [← List.append_nil (List.zipWith _ _ _)]
    refine (this.bind fun x hx => ?_)
    rw [hx, Nat.add_right_comm, Nat.add_assoc]
    exact .done rfl

/-- Of the first `k` turns of a cursor that runs round-robin over `n` handles, `k / n` fall on
handle `i`, and one more when `i < k % n`. -/
theorem count_turns {n i : Nat} (hi : i < n) (k : Nat) :
    Nat.count (fun j => j % n = i) k = k / n + if i < k % n then 1 else 0 := by
  have h := Nat.count_modEq_card k (Nat.zero_lt_of_lt hi) i
  simp only [Nat.ModEq, Nat.mod_eq_of_lt hi] at h
  exact h

/-- From a fresh cursor `k` sends go to `participants[j % n]` in turn, so `participants[i]` is offered
`⌊k / n⌋` or `⌈k / n⌉` messages. -/
theorem send_round_robin (s : State) (hn : 0 < s.participants.length) (hc : s.current = 0)
    (msgs : List (Buf × Nat)) :
    Proc.Sends (fun x => x.2 = { s with current := msgs.length % s.participants.length })
      ((msgs.mapM fun m => send (some m.1) m.2).run s)
      ((List.range msgs.length).zipWith (fun j m =>
        ((s.participants.get ⟨j % s.participants.length, Nat.mod_lt _ hn⟩).peer, m.1.slice 0 m.2))
        msgs) ∧
    msgs.length % s.participants.length < s.participants.length ∧
    ∀ i < s.participants.length, Nat.count (fun j => j % s.participants.length = i) msgs.length =
      msgs.length / s.participants.length + if i < msgs.length % s.participants.length then 1 else 0 := by
  have h := sends_from msgs 0 s hn (by rw [hc, Nat.zero_mod])
  rw [Nat.zero_add, ← List.range_eq_range'] at h
  exact ⟨h, Nat.mod_lt _ hn, fun _ hi => count_turns hi _⟩

/-- Two handles, three messages: the first and third to peer `1`, the second to peer `2`. -/
theorem send_round_robin_three :
    let b : Buf := fun _ => 7
    (0 < [Handle.fresh 1, .fresh 2].length ∧
      ({ participants := [.fresh 1, .fresh 2] } : State).current = 0) ∧
    Proc.Sends (fun x => x.2 = { participants := [.fresh 1, .fresh 2], current := 1 })
      (([(b, 1), (b, 2), (b, 3)].mapM fun m => send (some m.1) m.2).run
        { participants := [.fresh 1, .fresh 2] })
      [(1, b.slice 0 1), (2, b.slice 0 2), (1, b.slice 0 3)] := by
  intro b
  have h := (send_round_robin { participants := [.fresh 1, .fresh 2] } (by decide) rfl
    [(b, 1), (b, 2), (b, 3)]).1
  simp only [List.length_cons, List.length_nil, Nat.reduceAdd, Nat.reduceMod] at h
  exact ⟨⟨by decide, rfl⟩, h⟩

end FanOutGeneric
