-- SUMMARY: BroadcastGeneric::sendrecv: the root sends its buffer on every handle and each other rank receives it, so that in every interleaving every rank ends with the root's bytes.
import MtclCollectives.Framing
import MtclCollectives.Network.Team

/-!
# Broadcast

The root of `BroadcastGeneric::sendrecv` sends its buffer as one frame on each handle; with
`S > 0` bytes the call runs from its start to its finish with every handle as it was, and every
rank returns `S`.
-/

open CollM

namespace BroadcastGeneric

/-- `BroadcastGeneric::sendrecv(sendbuff, sendsize, recvbuff, recvsize)`: the return value, and
the receive buffer after the call. -/
def sendrecv (cfg : Config) (sendbuff : Option Buf) (sendsize : Nat) (recvbuff : Option Buf)
    (recvsize : Nat) : CollM (Int × Option Buf) := do
  if cfg.root then
    if !(← sendEach sendbuff sendsize (← get).participants) then
      return (-1, recvbuff)
    match recvbuff with
    | some b => return (sendsize, some (b.write 0 (← readPtr sendbuff 0 sendsize)))
    | none => return (sendsize, none)
  else
    receiveShare recvbuff recvsize

/-- `BroadcastGeneric::probe`: not supported. -/
def probe (size : Nat) (_blocking : Bool) : CollM (Int × Nat) :=
  (·, size) <$> unsupported

/-- `BroadcastGeneric::send`: not supported. -/
def send (_buff : Option Buf) (_size : Nat) : CollM Int :=
  unsupported

/-- `BroadcastGeneric::receive`: not supported. -/
def receive (buff : Option Buf) (_size : Nat) : CollM (Int × Option Buf) :=
  (·, buff) <$> unsupported

/-- `BroadcastGeneric::close(close_wr, close_rd)`: the root write-closes every handle; a
non-root does nothing. -/
def close (root : Bool) : CollM Unit :=
  closeWhen root

theorem sendrecv_blocking (cfg : Config) (sendbuff : Option Buf) (sendsize : Nat)
    (recvbuff : Option Buf) (recvsize : Nat) :
    CollM.Blocking (sendrecv cfg sendbuff sendsize recvbuff recvsize) := by
  unfold sendrecv
  simp only [pure_bind]
  exact .ite (.bind .get fun _ => .bind (sendEach_blocking _ _ _) fun _ => .ite (.pure _)
      (match recvbuff with
        | some _ => .bind (.readPtr _ _ _) fun _ => .pure _
        | none => .pure _))
    (receiveShare_blocking _ _)

/-- When every send succeeds, the root sends its `S` bytes once to each rank, in rank order,
returns `S`, and copies the bytes to its receive buffer when it has one. -/
theorem sendrecv_root_emits (g : Team) (b : Buf) (S : Nat) (recvbuff : Option Buf)
    (recvsize : Nat) :
    Proc.Emits ((sendrecv (g.config 0) (some b) S recvbuff recvsize).run (g.state 0))
      ((List.range (g.n - 1)).map fun i => (i + 1, b.slice 0 S))
      (((S : Int), recvbuff.map (·.write 0 (b.slice 0 S))), g.state 0) := by
  have hl : (List.range (g.n - 1)).map (fun i => (i + 1, b.slice 0 S)) =
      (g.participants 0).map (fun h => (h.peer, b.slice 0 S)) ++ [] := by
    simp [Team.participants, Function.comp_def]
  simp only [sendrecv, Team.config_root, beq_self_eq_true, if_true, StateT.run_bind,
    StateT.run_get, Proc.pure_eq, Proc.done_bind, Team.state_participants, hl]
  refine (sendEach_emits b S _ _).bind ?_
  cases recvbuff <;> exact .done _

-- ---------------------------------------------------------------------------
-- A round of the group
-- ---------------------------------------------------------------------------

/-- A broadcast of the `size > 0` bytes at `buff`: the root sends them, and every other rank
has a buffer with room for them. -/
structure Admits (g : Team) (calls : Nat → Call) (buff : Buf) (size : Nat) : Prop where
  pos : 0 < size
  sendbuff : (calls 0).sendbuff = some buff
  sendsize : (calls 0).sendsize = size
  recvbuff : ∀ r, 0 < r → r < g.n → (calls r).recvbuff.isSome
  recvsize : ∀ r, 0 < r → r < g.n → size ≤ (calls r).recvsize

/-- Team rank `r`'s call. -/
def code (g : Team) (calls : Nat → Call) (r : Nat) : CollM (Int × Option Buf) :=
  sendrecv (g.config r) (calls r).sendbuff (calls r).sendsize (calls r).recvbuff
    (calls r).recvsize

/-- A non-root's call is its `receiveShare`. -/
theorem code_of_ne_zero (g : Team) (calls : Nat → Call) {r : Nat} (hr : r ≠ 0) :
    code g calls r = receiveShare (calls r).recvbuff (calls r).recvsize := by
  simp [code, sendrecv, Team.config, hr]

/-- What team rank `r` returns from a broadcast of the bytes `B`: their count, and its
receive buffer with `B` at its start. -/
def result (calls : Nat → Call) (B : Bytes) (r : Nat) : Int × Option Buf :=
  (B.length, (calls r).recvbuff.map (·.write 0 B))

variable {g : Team} {calls : Nat → Call} {b : Buf} {S : Nat} {β : Type}

/-- The frames of the broadcast still in flight once ranks below `i` have run. -/
private def inFlight (g : Team) (B : Bytes) (i : Nat) : Chans :=
  if i = 0 then fun _ => [] else Chans.star (Chans.span i g.n fun _ => B) fun _ => []

theorem round (h : Admits g calls b S) (K : Nat → (Int × Option Buf) × State → Proc β) :
    Net.Reach (g.start (code g calls) K) (g.finish (result calls (b.slice 0 S)) K) := by
  refine g.reach_finish (inFlight g (b.slice 0 S)) rfl ?_ fun r hr => ?_
  · simp [inFlight, g.zero_lt.ne', Chans.span_empty le_rfl, Chans.star_empty]
  rcases Nat.eq_zero_or_pos r with rfl | hr0
  · have hroot := (Runs.of_emits (p := 0) (sendrecv_root_emits g b S (calls 0).recvbuff
      (calls 0).recvsize) (Chans.star (fun _ => []) fun _ => [])).cont (K 0)
    rw [Chans.sendAll_star_root (f := fun _ => b.slice 0 S), Chans.star_empty] at hroot
    simpa [code, result, inFlight, h.sendbuff, h.sendsize, Nat.sub_add_cancel g.one_le] using hroot
  · obtain ⟨buf, hbuf⟩ := Option.isSome_iff_exists.mp (h.recvbuff r hr0 hr)
    have hc : inFlight g (b.slice 0 S) r ((Handle.fresh 0).peer, r) = [.frame (b.slice 0 S)] := by
      simp [inFlight, hr0.ne', Chans.span_of_mem le_rfl hr]
    have := (receiveShare_frame (s := g.state r) buf (g.participants_getElem?_zero hr0.ne') (Handle.fresh_idle 0)
      hc (by simpa [← List.length_pos] using h.pos) (by simpa using h.recvsize r hr0 hr)).cont (K r)
    simpa [code, result, inFlight, hbuf, hr0.ne', Team.config, Chans.pop_star_down,
      Chans.span_pop, sendrecv] using this

theorem code_blocking (g : Team) (calls : Nat → Call) (r : Nat) :
    CollM.Blocking (code g calls r) :=
  sendrecv_blocking _ _ _ _ _

/-- The root sends its `S > 0` bytes once per handle, and in every interleaving every rank returns
`S` with those bytes at the start of its receive buffer. -/
theorem sendrecv_delivers (g : Team) (calls : Nat → Call) (b : Buf) (S : Nat)
    (h : Admits g calls b S) :
    Proc.Emits ((code g calls 0).run (g.state 0))
        ((List.range (g.n - 1)).map fun i => (i + 1, b.slice 0 S))
        (result calls (b.slice 0 S) 0, g.state 0) ∧
      ∀ r < g.n, (g.launch (code g calls)).Determined r (result calls (b.slice 0 S) r, g.state r) :=
  ⟨by simpa [code, result, h.sendbuff, h.sendsize] using
      sendrecv_root_emits g b S (calls 0).recvbuff (calls 0).recvsize,
    fun _ hr => Team.determined_of_finish (code_blocking g calls) (round h fun _ => .done) hr⟩

/-- Two ranks broadcasting one byte. -/
theorem sendrecv_delivers_two_ranks :
    let g : Team := ⟨2, by decide, by decide⟩
    let calls : Nat → Call := fun _ => ⟨some fun _ => 7, 1, some fun _ => 0, 1, 1⟩
    Admits g calls (fun _ => 7) 1 ∧
      (Proc.Emits ((code g calls 0).run (g.state 0)) [(1, [7])] (result calls [7] 0, g.state 0) ∧
        ∀ r < g.n, (g.launch (code g calls)).Determined r (result calls [7] r, g.state r)) :=
  have h : Admits ⟨2, by decide, by decide⟩ (fun _ => ⟨some fun _ => 7, 1, some fun _ => 0, 1, 1⟩)
      (fun _ => 7) 1 := ⟨by decide, rfl, rfl, fun _ _ _ => rfl, fun _ _ _ => le_rfl⟩
  ⟨h, sendrecv_delivers _ _ _ _ h⟩

-- ---------------------------------------------------------------------------
-- A broadcast of no bytes
-- ---------------------------------------------------------------------------

/-- A broadcast of 0 bytes to two ranks read-closes rank `1`'s handle, which returns 0 in every
interleaving. -/
theorem sendrecv_zero_bytes_closes (b : Buf) (rb : Nat → Buf) :
    let g : Team := ⟨2, by decide, by decide⟩
    let calls : Nat → Call := fun r => ⟨some b, 0, some (rb r), 0, 1⟩
    (g.launch (code g calls)).Determined 1 ((0, some (rb 1)),
      { participants := [{ peer := 0, probed := (true, 0), closedRd := true, closedWr := true }] }) := by
  intro g calls
  have h₀ := Runs.of_emits (p := 0) (sendrecv_root_emits g b 0 (some (rb 0)) 0) fun _ => []
  exact g.determined_after_root (code_blocking g calls) Nat.one_pos (by decide) h₀
    (receiveShare_eos (p := 1) (s := g.state 1) (some (rb 1))
      (g.participants_getElem?_zero Nat.one_ne_zero) (Handle.fresh_idle 0) rfl
      (c := Chans.sendAll (fun _ => []) 0 ((List.range (g.n - 1)).map fun i => (i + 1, b.slice 0 0)))
      (l := []) rfl)

end BroadcastGeneric
