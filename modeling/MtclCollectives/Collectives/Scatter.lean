-- SUMMARY: ScatterGeneric::sendrecv: the root cuts its buffer into the ranks' shares with a decrementing remainder counter and sends each share on its own handle; each rank receives its share.
import MtclCollectives.Framing
import MtclCollectives.Network.Team
import MtclCollectives.Partition

/-!
# Scatter

The root of `ScatterGeneric::sendrecv` cuts its buffer into shares by the chunk rule (spec
§4.2), keeps the first and sends the others in rank order; the shares tile the buffer
(`flatten_shares`).
-/

open CollM

namespace ScatterGeneric

/-- The root's send loop from iteration `i`, `k` left, the counter at `rcount` and the pointer at
`sendbuff + off`: `false` when a send fails. -/
def sendLoop (sendbuff : Option Buf) (sendcount datasize : Nat) :
    Nat → Nat → Nat → Nat → CollM Bool
  | _, 0, _, _ => pure true
  | i, k + 1, rcount, off => do
    let (chunksize, rcount) := takeShare sendcount datasize rcount
    let h ← participantsAt i
    if (← StateT.lift (h.send (← readPtr sendbuff off chunksize))) < 0 then
      setErrno ECONNRESET
      return false
    sendLoop sendbuff sendcount datasize (i + 1) k rcount (off + chunksize)

/-- `ScatterGeneric::sendrecv(sendbuff, sendsize, recvbuff, recvsize, datasize)`: the return
value, and the receive buffer after the call. -/
def sendrecv (cfg : Config) (sendbuff : Option Buf) (sendsize : Nat) (recvbuff : Option Buf)
    (recvsize datasize : Nat) : CollM (Int × Option Buf) := do
  if recvbuff.isNone then
    setErrno EFAULT
    return (-1, recvbuff)
  if cfg.root then
    if sendbuff.isNone then
      setErrno EFAULT
      return (-1, recvbuff)
    if (← sizeMod sendsize datasize) ≠ 0 then
      setErrno EINVAL
      return (-1, recvbuff)
    let datacount := sendsize / datasize
    let sendcount := datacount / cfg.nparticipants * datasize
    let (selfsendcount, rcount) := takeShare sendcount datasize (datacount % cfg.nparticipants)
    if recvsize < selfsendcount then
      setErrno EINVAL
      return (-1, recvbuff)
    let recvbuff ← writePtr recvbuff 0 (← readPtr sendbuff 0 selfsendcount)
    if !(← sendLoop sendbuff sendcount datasize 0 (cfg.nparticipants - 1) rcount selfsendcount) then
      return (-1, recvbuff)
    return (selfsendcount, recvbuff)
  else
    receiveShare recvbuff recvsize

/-- `ScatterGeneric::probe`: not supported. -/
def probe (size : Nat) (_blocking : Bool) : CollM (Int × Nat) :=
  (·, size) <$> unsupported

/-- `ScatterGeneric::send`: not supported. -/
def send (_buff : Option Buf) (_size : Nat) : CollM Int :=
  unsupported

/-- `ScatterGeneric::receive`: not supported. -/
def receive (buff : Option Buf) (_size : Nat) : CollM (Int × Option Buf) :=
  (·, buff) <$> unsupported

/-- `ScatterGeneric::close(close_wr, close_rd)`: the root write-closes every handle; a
non-root does nothing. -/
def close (root : Bool) : CollM Unit :=
  closeWhen root

theorem sendLoop_blocking (sendbuff : Option Buf) (sendcount datasize i k rcount off : Nat) :
    CollM.Blocking (sendLoop sendbuff sendcount datasize i k rcount off) := by
  induction k generalizing i rcount off with
  | zero => exact Blocking.pure _
  | succ k ih =>
    refine Blocking.bind (Blocking.participantsAt _) fun _ =>
      Blocking.bind (Blocking.readPtr _ _ _) fun _ => Blocking.bind (Blocking.send _ _) fun _ => ?_
    split
    · exact Blocking.bind (Blocking.setErrno _) fun _ => Blocking.pure _
    · exact ih _ _ _

theorem sendrecv_blocking (cfg : Config) (sendbuff : Option Buf) (sendsize : Nat)
    (recvbuff : Option Buf) (recvsize datasize : Nat) :
    CollM.Blocking (sendrecv cfg sendbuff sendsize recvbuff recvsize datasize) := by
  unfold sendrecv
  simp only [pure_bind]
  exact .ite (.fail _ _) (.ite (.ite (.fail _ _) (.bind (.sizeMod _ _) fun _ =>
    .ite (.fail _ _) (.ite (.fail _ _) (.bind (.readPtr _ _ _) fun _ => .bind (.writePtr _ _ _)
      fun _ => .bind (sendLoop_blocking _ _ _ _ _ _ _) fun _ => .ite (.pure _) (.pure _)))))
    (receiveShare_blocking _ _))

-- ---------------------------------------------------------------------------
-- The root's walk through its buffer
-- ---------------------------------------------------------------------------

section Walk

variable {n datasize count : Nat}

/-- The share of rank `r` of the buffer `b`. -/
def share (n datasize count : Nat) (b : Buf) (r : Nat) : Bytes :=
  b.slice (displ n datasize count r) (chunk n datasize count r)

/-- From iteration `i` on, the loop sends the share of each rank `j + 1` on `participants[j]`,
in order: the remainder counter and the running pointer stay in step with the chunk rule. -/
theorem sendLoop_emits (b : Buf) (s : State) (i k : Nat)
    (hs : ∀ j, i ≤ j → j < i + k → s.participants[j]? = some (.fresh (j + 1))) :
    Proc.Emits ((sendLoop (some b) (count / n * datasize) datasize i k (count % n - (i + 1))
        (displ n datasize count (i + 1))).run s)
      ((List.range' i k).map fun j => (j + 1, share n datasize count b (j + 1))) (true, s) := by
  induction k generalizing i with
  | zero => exact .done _
  | succ k ih =>
    have hrest := ih (i + 1) fun j h₁ h₂ => hs j (by omega) (by omega)
    simp only [sendLoop, takeShare_eq, run_participantsAt (hs i le_rfl (by omega)),
      StateT.run_bind, Proc.done_bind, run_readPtr, Handle.send, StateT.run_lift, Proc.send_bind]
    refine .send fun r hr => ?_
    simpa [Int.not_lt.mpr hr, share, ← displ_succ, List.range'_succ] using hrest

/-- The shares of ranks `0, …, k - 1` concatenate to the first `displ k` bytes. -/
theorem flatten_shares (b : Buf) (k : Nat) :
    ((List.range k).map (share n datasize count b)).flatten =
      b.slice 0 (displ n datasize count k) := by
  induction k with
  | zero => rfl
  | succ k ih =>
    rw [List.range_succ, List.map_append, List.flatten_append, ih, displ_succ, Buf.slice_add]
    simp [share]

end Walk

/-- When every send succeeds, the root keeps its own share, sends the share of each rank
`i + 1` on `participants[i]` in order, and returns the size of its own share. -/
theorem sendrecv_root_emits (g : Team) (b rb : Buf) {S recvsize ds : Nat} (hds : 0 < ds)
    (hS : S % ds = 0) (hrs : chunk g.n ds (S / ds) 0 ≤ recvsize) :
    Proc.Emits ((sendrecv (g.config 0) (some b) S (some rb) recvsize ds).run (g.state 0))
      ((List.range (g.n - 1)).map fun i => (i + 1, share g.n ds (S / ds) b (i + 1)))
      (((chunk g.n ds (S / ds) 0 : Nat), some (rb.write 0 (share g.n ds (S / ds) b 0))),
        g.state 0) := by
  have hrs' : ¬recvsize < displ g.n ds (S / ds) 1 := by rw [displ_one]; omega
  simp only [sendrecv, Option.isNone_some, Bool.false_eq_true, ↓reduceIte, Team.config_root,
    beq_self_eq_true, ne_eq, Int.reduceNeg, bind_pure_comp, Team.config_nparticipants,
    takeShare_eq_zero, ← displ_one, hrs', Bool.not_eq_eq_eq_not, Bool.not_true, map_pure, pure_bind,
    ite_not, StateT.run_bind, run_sizeMod _ hds, hS, Proc.done_bind, run_readPtr, run_writePtr]
  rw [← List.append_nil ((List.range (g.n - 1)).map _), List.range_eq_range']
  refine (sendLoop_emits b (g.state 0) 0 (g.n - 1) fun j _ hj =>
    g.participants_root_getElem? (i := j) (by omega)).bind ?_
  simpa [share, displ_one] using Proc.Emits.done _

/-- Any other rank takes the root's frame `f` when it has room for it. -/
theorem sendrecv_frame (g : Team) {r : Nat} (hr : r ≠ 0) (sendbuff : Option Buf)
    (sendsize : Nat) (buf : Buf) (datasize : Nat) {recvsize : Nat} {f : Bytes} {c : Chans}
    {l : List Msg} (hc : c (0, r) = .frame f :: l) (hf : f ≠ []) (hcap : f.length ≤ recvsize) :
    Runs r (sendrecv (g.config r) sendbuff sendsize (some buf) recvsize datasize) (g.state r) c
      (f.length, some (buf.write 0 f)) (g.state r) ((Act.pop (0, r)).apply c) := by
  have : sendrecv (g.config r) sendbuff sendsize (some buf) recvsize datasize =
      receiveShare (some buf) recvsize := by
    simp [sendrecv, hr]
  exact this ▸ receiveShare_frame buf (g.participants_getElem?_zero hr) (Handle.fresh_idle 0) hc hf
    hcap

-- ---------------------------------------------------------------------------
-- The team
-- ---------------------------------------------------------------------------

/-- The root scatters the `size` bytes at `buff` in elements of `datasize > 0` bytes, and has a
receive buffer with room for its own share. -/
structure Admits (g : Team) (calls : Nat → Call) (buff : Buf) (size datasize : Nat) : Prop where
  datasize_pos : 0 < datasize
  dvd : size % datasize = 0
  sendbuff : (calls 0).sendbuff = some buff
  sendsize : (calls 0).sendsize = size
  datasize_eq : (calls 0).datasize = datasize
  recvbuff : (calls 0).recvbuff.isSome
  recvsize : chunk g.n datasize (size / datasize) 0 ≤ (calls 0).recvsize

/-- Team rank `r`'s call. -/
def code (g : Team) (calls : Nat → Call) (r : Nat) : CollM (Int × Option Buf) :=
  sendrecv (g.config r) (calls r).sendbuff (calls r).sendsize (calls r).recvbuff
    (calls r).recvsize (calls r).datasize

theorem code_blocking (g : Team) (calls : Nat → Call) (r : Nat) :
    CollM.Blocking (code g calls r) :=
  sendrecv_blocking _ _ _ _ _ _

/-- The root sends share `i + 1` on `participants[i]` and the shares tile its buffer; in every
interleaving each other rank returns its share. -/
theorem sendrecv_splits (g : Team) (calls : Nat → Call) (b : Buf) (S ds : Nat)
    (h : Admits g calls b S ds) :
    Proc.Emits ((code g calls 0).run (g.state 0))
        ((List.range (g.n - 1)).map fun i => (i + 1, share g.n ds (S / ds) b (i + 1)))
        (((chunk g.n ds (S / ds) 0 : Nat), (calls 0).recvbuff.map (·.write 0 (share g.n ds (S / ds) b 0))),
          g.state 0) ∧
      ((List.range g.n).map (share g.n ds (S / ds) b)).flatten = b.slice 0 S ∧
      ∀ r, 0 < r → r < g.n → 0 < chunk g.n ds (S / ds) r →
        chunk g.n ds (S / ds) r ≤ (calls r).recvsize → ∀ buf, (calls r).recvbuff = some buf →
        (g.launch (code g calls)).Determined r
          (((chunk g.n ds (S / ds) r : Nat), some (buf.write 0 (share g.n ds (S / ds) b r))),
            g.state r) := by
  obtain ⟨rb, hrb⟩ := Option.isSome_iff_exists.mp h.recvbuff
  have hroot : Proc.Emits ((code g calls 0).run (g.state 0))
      ((List.range (g.n - 1)).map fun i => (i + 1, share g.n ds (S / ds) b (i + 1)))
      (((chunk g.n ds (S / ds) 0 : Nat), some (rb.write 0 (share g.n ds (S / ds) b 0))),
        g.state 0) := by
    simpa [code, h.sendbuff, h.sendsize, h.datasize_eq, hrb] using
      sendrecv_root_emits g b rb h.datasize_pos h.dvd (by simpa [hrb] using h.recvsize)
  refine ⟨by simpa [hrb] using hroot, ?_, fun r hr hrn hpos hcap buf hbuf => ?_⟩
  · rw [flatten_shares, displ_self g.zero_lt, Nat.div_mul_cancel (Nat.dvd_of_mod_eq_zero h.dvd)]
  · have h₀ := Runs.of_emits (p := 0) hroot (Chans.star (fun _ => []) fun _ => [])
    rw [Chans.sendAll_star_root (f := share g.n ds (S / ds) b), Chans.star_empty,
      Nat.sub_add_cancel g.one_le] at h₀
    have hf : share g.n ds (S / ds) b r ≠ [] := by simpa [share, ← List.length_pos] using hpos
    have h₁ := sendrecv_frame g hr.ne' (calls r).sendbuff (calls r).sendsize buf (calls r).datasize
      (c := Chans.star (Chans.span 1 g.n (share g.n ds (S / ds) b)) fun _ => [])
      (by rw [Chans.star_down, Chans.span_of_mem hr hrn]) hf (by simpa [share] using hcap)
    simpa [share] using g.determined_after_root (code_blocking g calls) hr hrn h₀
      (by simpa [code, hbuf, share] using h₁)

/-- Two ranks scattering two one-byte elements. -/
theorem sendrecv_splits_two_ranks :
    let g : Team := ⟨2, by decide, by decide⟩
    let calls : Nat → Call := fun _ => ⟨some fun _ => 7, 2, some fun _ => 0, 2, 1⟩
    let b : Buf := fun _ => 7
    Admits g calls b 2 1 ∧
      (Proc.Emits ((code g calls 0).run (g.state 0))
          ((List.range (g.n - 1)).map fun i => (i + 1, share g.n 1 (2 / 1) b (i + 1)))
          (((chunk g.n 1 (2 / 1) 0 : Nat), (calls 0).recvbuff.map (·.write 0 (share g.n 1 (2 / 1) b 0))),
            g.state 0) ∧
        ((List.range g.n).map (share g.n 1 (2 / 1) b)).flatten = b.slice 0 2 ∧
        ∀ r, 0 < r → r < g.n → 0 < chunk g.n 1 (2 / 1) r →
          chunk g.n 1 (2 / 1) r ≤ (calls r).recvsize → ∀ buf, (calls r).recvbuff = some buf →
          (g.launch (code g calls)).Determined r
            (((chunk g.n 1 (2 / 1) r : Nat), some (buf.write 0 (share g.n 1 (2 / 1) b r))),
              g.state r)) :=
  have h : Admits ⟨2, by decide, by decide⟩ (fun _ => ⟨some fun _ => 7, 2, some fun _ => 0, 2, 1⟩)
      (fun _ => 7) 2 1 := ⟨by decide, by decide, rfl, rfl, rfl, rfl, by decide⟩
  ⟨h, sendrecv_splits _ _ _ _ _ h⟩

-- ---------------------------------------------------------------------------
-- A round of the team
-- ---------------------------------------------------------------------------

/-- A scatter in which every share is non-empty and every rank has a receive buffer with room
for its share. -/
structure Full (g : Team) (calls : Nat → Call) (buff : Buf) (size datasize : Nat)
    extends Admits g calls buff size datasize : Prop where
  le_count : g.n ≤ size / datasize
  recvbuff_all : ∀ r < g.n, (calls r).recvbuff.isSome
  recvsize_all : ∀ r < g.n, chunk g.n datasize (size / datasize) r ≤ (calls r).recvsize

/-- What team rank `r` returns from a scatter of `b`: the size of its share, and its receive
buffer with the share at its start. -/
def result (g : Team) (calls : Nat → Call) (b : Buf) (S ds r : Nat) : Int × Option Buf :=
  (chunk g.n ds (S / ds) r, (calls r).recvbuff.map (·.write 0 (share g.n ds (S / ds) b r)))

variable {g : Team} {calls : Nat → Call} {b : Buf} {S ds : Nat} {β : Type}

theorem round (h : Full g calls b S ds) (K : Nat → (Int × Option Buf) × State → Proc β) :
    Net.Reach (g.start (code g calls) K) (g.finish (result g calls b S ds) K) := by
  refine g.reach_finish (fun r => if r = 0 then fun _ => [] else
      Chans.star (Chans.span r g.n (share g.n ds (S / ds) b)) fun _ => []) rfl ?_ fun r hr => ?_
  · simp [g.zero_lt.ne', Chans.span_empty le_rfl, Chans.star_empty]
  obtain ⟨rb, hrb⟩ := Option.isSome_iff_exists.mp (h.recvbuff_all r hr)
  rcases Nat.eq_zero_or_pos r with rfl | hr0
  · have hroot := (Runs.of_emits (p := 0) (sendrecv_root_emits g b rb h.datasize_pos h.dvd
      (h.recvsize_all 0 hr)) (Chans.star (fun _ => []) fun _ => [])).cont (K 0)
    rw [Chans.sendAll_star_root (f := share g.n ds (S / ds) b), Chans.star_empty,
      Nat.sub_add_cancel g.one_le] at hroot
    simpa [code, result, h.sendbuff, h.sendsize, h.datasize_eq, hrb] using hroot
  · have hf : share g.n ds (S / ds) b r ≠ [] := by
      simpa [share, ← List.length_pos] using chunk_pos g.zero_lt h.le_count h.datasize_pos r
    have hrun := (sendrecv_frame g hr0.ne' (calls r).sendbuff (calls r).sendsize rb
      (calls r).datasize (c := Chans.star (Chans.span r g.n (share g.n ds (S / ds) b)) fun _ => [])
      (by rw [Chans.star_down, Chans.span_of_mem le_rfl hr]) hf
      (by simpa [share] using h.recvsize_all r hr)).cont (K r)
    rw [Chans.pop_star_down, Chans.span_pop] at hrun
    simpa [code, result, hrb, hr0.ne', share] using hrun

end ScatterGeneric
