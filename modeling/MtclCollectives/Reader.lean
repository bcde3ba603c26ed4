-- SUMMARY: One handle read through the framing helper: a peer's stream of frames and its end, the reader the helper is meant to be, and that every session of probeHandle and receiveFromHandle calls is a run of that reader, whatever the calls and the arrivals.
import Mathlib.Data.List.Chain
import MtclCollectives.Framing

/-!
# A stream read through the framing helper

`PeerStream.Moves` is the reader the framing helper is meant to be; `PeerStream.Stands` ties it
to the handle and the connection, so every session of calls and arrivals is a trace of moves
and receives the stream's frames in order, each once.
-/

open CollM

/-- How a peer's stream ends, as its reader's probe sees it. -/
inductive StreamEnd where
  /-- A frame of size 0, which the peer's `close` on its write side sends. -/
  | eos
  /-- The connection is closed: the probe returns 0. -/
  | closed
  /-- The connection is reset: the probe fails with `ECONNRESET`. -/
  | reset
  deriving DecidableEq, Repr

namespace StreamEnd

/-- What stands on the connection at the end. -/
def msg : StreamEnd → Msg
  | eos => .frame []
  | closed => .eof
  | reset => .reset

/-- The handle to `q` once its reader saw the end: a frame of size 0 leaves the size 0 cached
and the read side closed; a closed or reset connection closes the handle both ways. -/
def handle (q : Nat) : StreamEnd → Handle
  | eos => { peer := q, probed := (true, 0), closedRd := true }
  | closed | reset => { peer := q, closedRd := true, closedWr := true }

@[simp] theorem handle_closedRd (q : Nat) (e : StreamEnd) : (e.handle q).closedRd = true := by
  cases e <;> rfl

@[simp] theorem handle_probed_snd (q : Nat) (e : StreamEnd) : (e.handle q).probed.2 = 0 := by
  cases e <;> rfl

end StreamEnd

/-- A peer's stream: its data frames, each non-empty, then its end. -/
structure PeerStream where
  frames : List Bytes
  fin : StreamEnd
  nonempty : [] ∉ frames

/-- Where the reader of a stream is besides its position: between frames, with the size of the
next frame pending, or past the end. -/
inductive Phase where
  | idle
  | pending
  | ended
  deriving DecidableEq, Repr

/-- A call of the framing helper on the reader's handle. -/
inductive Req where
  /-- `probeHandle(h, size, blocking)`. -/
  | probe (size : Nat) (blocking : Bool)
  /-- `receiveFromHandle(h, buff, cap)`. -/
  | receive (cap : Nat)

/-- What the caller sees after a call: the return value; `size` after `probeHandle`, or the
bytes `receiveFromHandle` stored; and `errno`. -/
inductive Reply where
  | probed (ret : Int) (size : Nat) (errno : Nat)
  | received (ret : Int) (payload : Bytes) (errno : Nat)
  deriving DecidableEq, Repr

namespace Reply

/-- The call's return value. -/
def ret : Reply → Int
  | probed r _ _ | received r _ _ => r

/-- The payload the call delivered: a receive's bytes when it returned a positive count. -/
def taken : Reply → List Bytes
  | received r d _ => if 0 < r then [d] else []
  | probed .. => []

end Reply

/-- The caller's code for a call on the handle `participants[i]`; a receive stores into a
zeroed buffer, and its caller reads back as many bytes as the call returned. -/
def Req.run (i : Nat) : Req → CollM Reply
  | .probe size blocking => do
    let (r, size) ← probeHandle i size blocking
    return .probed r size (← get).errno
  | .receive cap => do
    let (r, buff) ← receiveFromHandle i (some fun _ => 0) 0 cap
    return .received r ((buff.getD fun _ => 0).slice 0 r.toNat) (← get).errno

section Calls

variable {p i : Nat} {s s' : State} {c c' : Chans}

theorem Req.run_probe {size sz : Nat} {b : Bool} {r : Int}
    (h : Runs p (probeHandle i size b) s c (r, sz) s' c') :
    Runs p ((Req.probe size b).run i) s c (.probed r sz s'.errno) s' c' :=
  h.bind (Runs.of_eq rfl)

theorem Req.run_receive {cap : Nat} {r : Int} {rb : Buf} {d : Bytes}
    (h : Runs p (receiveFromHandle i (some fun _ => 0) 0 cap) s c (r, some rb) s' c')
    (hd : rb.slice 0 r.toNat = d) :
    Runs p ((Req.receive cap).run i) s c (.received r d s'.errno) s' c' :=
  h.bind (Runs.of_eq (by simp [hd]))

end Calls

namespace PeerStream

variable (σ : PeerStream)

/-- The messages of the stream, in the order they arrive. -/
def msgs : List Msg := σ.frames.map .frame ++ [σ.fin.msg]

/-- The positions and phases a reader can be in: a size pending only before a frame, the end
seen only past the last frame. -/
def Valid : Nat × Phase → Prop
  | (k, .idle) => k ≤ σ.frames.length
  | (k, .pending) => k < σ.frames.length
  | (k, .ended) => k = σ.frames.length

/-- The handle to `q` of a reader at position `k` in phase `ph`. -/
def handle (q : Nat) : Nat × Phase → Handle
  | (_, .idle) => .fresh q
  | (k, .pending) => { peer := q, probed := (true, (σ.frames.getD k []).length) }
  | (_, .ended) => σ.fin.handle q

variable {σ}

theorem msgs_drop_of_getElem? {k : Nat} {f : Bytes} (h : σ.frames[k]? = some f) :
    σ.msgs.drop k = .frame f :: σ.msgs.drop (k + 1) := by
  obtain ⟨hk, rfl⟩ := List.getElem?_eq_some_iff.mp h
  rw [msgs, List.drop_eq_getElem_cons (by simp; omega)]
  simp [List.getElem_append_left (show k < (σ.frames.map Msg.frame).length by simpa)]

theorem msgs_drop_length : σ.msgs.drop σ.frames.length = [σ.fin.msg] := by
  simp [msgs]

theorem handle_pending {q k : Nat} {f : Bytes} (h : σ.frames[k]? = some f) :
    σ.handle q (k, .pending) = { peer := q, probed := (true, f.length) } := by
  simp [handle, List.getD_eq_getElem?_getD, h]

theorem ne_nil_of_getElem? {k : Nat} {f : Bytes} (h : σ.frames[k]? = some f) : f ≠ [] :=
  fun hf => σ.nonempty (hf ▸ List.mem_iff_getElem?.mpr ⟨k, h⟩)

-- ---------------------------------------------------------------------------
-- The reader the framing helper is meant to be
-- ---------------------------------------------------------------------------

variable (σ)

/-- What one call does to a reader at `st`, as the framing helper is meant to behave, `arrived`
saying whether the next message is on the connection. -/
inductive Moves : Req → Bool → Nat × Phase → Reply → Nat × Phase → Prop
  /-- With a size pending, a probe reports it again. -/
  | probe_pending {size b a k f e} : σ.frames[k]? = some f →
      Moves (.probe size b) a (k, .pending) (.probed sizeofSizeT f.length e) (k, .pending)
  /-- Past the end, a probe returns 0. -/
  | probe_ended {size b a k size' e} :
      Moves (.probe size b) a (k, .ended) (.probed 0 size' e) (k, .ended)
  /-- A non-blocking probe with nothing arrived would block. -/
  | probe_wouldBlock {size k} :
      Moves (.probe size false) false (k, .idle) (.probed (-1) size EWOULDBLOCK) (k, .idle)
  /-- A probe reads the header of the next frame: its size is pending. -/
  | probe_header {size b k f e} : σ.frames[k]? = some f →
      Moves (.probe size b) true (k, .idle) (.probed sizeofSizeT f.length e) (k, .pending)
  /-- A probe reads the end. -/
  | probe_end {size b size' e} :
      Moves (.probe size b) true (σ.frames.length, .idle) (.probed 0 size' e)
        (σ.frames.length, .ended)
  /-- Past the end, a receive returns 0. -/
  | receive_ended {cap a k e} : Moves (.receive cap) a (k, .ended) (.received 0 [] e) (k, .ended)
  /-- A receive reads the end. -/
  | receive_end {cap e} :
      Moves (.receive cap) true (σ.frames.length, .idle) (.received 0 [] e)
        (σ.frames.length, .ended)
  /-- A frame larger than `cap` stays where it is, its size pending. -/
  | receive_nomem {cap k ph f} : σ.frames[k]? = some f → cap < f.length → ph ≠ .ended →
      Moves (.receive cap) true (k, ph) (.received (-1) [] ENOMEM) (k, .pending)
  /-- A frame that fits is taken whole. -/
  | receive_frame {cap k ph f e} : σ.frames[k]? = some f → f.length ≤ cap → ph ≠ .ended →
      Moves (.receive cap) true (k, ph) (.received f.length f e) (k + 1, .idle)

/-- The replies `rs` to the calls `reqs`, made one after another from `st` to `st'`, whatever
arrived before each. -/
inductive Trace : List Req → Nat × Phase → List Reply → Nat × Phase → Prop
  | nil {st} : Trace [] st [] st
  | cons {req reqs a st st₁ r rs st'} :
      σ.Moves req a st r st₁ → Trace reqs st₁ rs st' → Trace (req :: reqs) st (r :: rs) st'

variable {σ} {req : Req} {a : Bool} {st st' : Nat × Phase} {r : Reply}

theorem Moves.valid (h : σ.Moves req a st r st') (hv : σ.Valid st) : σ.Valid st' := by
  cases h with
  | probe_header hf | receive_nomem hf => exact (List.getElem?_eq_some_iff.mp hf).1
  | receive_frame hf => exact (List.getElem?_eq_some_iff.mp hf).1
  | _ => first | exact hv | rfl

/-- A move delivers the frame at the reader's position, and only when it moves past it. -/
theorem Moves.taken (h : σ.Moves req a st r st') :
    σ.frames.take st.1 ++ r.taken = σ.frames.take st'.1 := by
  cases h with
  | receive_frame hf =>
    have := List.length_pos.mpr (ne_nil_of_getElem? hf)
    simp [Reply.taken, List.take_succ, hf, this]
  | _ => simp [Reply.taken]

/-- Past the end, every call returns 0 and the reader stays. -/
theorem Moves.of_ended {k : Nat} (h : σ.Moves req a (k, .ended) r st') :
    r.ret = 0 ∧ st' = (k, .ended) := by
  cases h <;> trivial

/-- A call returns 0 only when the reader has seen the end. -/
theorem Moves.ended_of_ret (h : σ.Moves req a st r st') (hr : r.ret = 0) : st'.2 = .ended := by
  cases h with
  | receive_frame hf => exact absurd hr (Bytes.length_ne_zero (ne_nil_of_getElem? hf))
  | _ => first | rfl | simp [Reply.ret, sizeofSizeT] at hr

variable {reqs : List Req} {rs : List Reply}

theorem Trace.valid (h : σ.Trace reqs st rs st') (hv : σ.Valid st) : σ.Valid st' := by
  induction h with
  | nil => exact hv
  | cons hm _ ih => exact ih (hm.valid hv)

/-- The payloads a trace delivers are the stream's frames from the reader's position on, in
order, each once. -/
theorem Trace.taken (h : σ.Trace reqs st rs st') :
    σ.frames.take st.1 ++ rs.flatMap Reply.taken = σ.frames.take st'.1 := by
  induction h with
  | nil => simp
  | cons hm _ ih => rw [List.flatMap_cons, ← List.append_assoc, hm.taken, ih]

theorem Trace.of_ended {k : Nat} (h : σ.Trace reqs (k, .ended) rs st') :
    (∀ r ∈ rs, r.ret = 0) ∧ st' = (k, .ended) := by
  generalize hst : (k, Phase.ended) = st at h
  induction h with
  | nil => exact ⟨by simp, rfl⟩
  | cons hm _ ih =>
    subst hst
    obtain ⟨hr, rfl⟩ := hm.of_ended
    obtain ⟨hrs, hst'⟩ := ih rfl
    exact ⟨by simpa [hr] using hrs, hst'⟩

/-- Once a call returned 0, the reader has seen the end. -/
theorem Trace.ended (h : σ.Trace reqs st rs st') (hr : ∃ r ∈ rs, r.ret = 0) : st'.2 = .ended := by
  induction h with
  | nil => simp at hr
  | @cons _ _ _ _ st₁ r _ _ hm ht ih =>
    obtain ⟨r', hr', h₀⟩ := hr
    rcases List.mem_cons.mp hr' with rfl | hrs
    · obtain ⟨k, ph⟩ := st₁
      cases hm.ended_of_ret h₀
      rw [(ht.of_ended).2]
    · exact ih ⟨r', hrs, h₀⟩

/-- Once a call returned 0, every later call returns 0. -/
theorem Trace.chain (h : σ.Trace reqs st rs st') :
    rs.Chain' fun r r' => r.ret = 0 → r'.ret = 0 := by
  induction h with
  | nil => exact List.chain'_nil
  | @cons _ _ _ _ st₁ r rs _ hm ht ih =>
    refine ih.cons' fun r' hr' h₀ => ?_
    obtain ⟨k, ph⟩ := st₁
    cases hm.ended_of_ret h₀
    exact (ht.of_ended).1 r' (List.mem_of_mem_head? hr')

-- ---------------------------------------------------------------------------
-- The reader's handle and connection
-- ---------------------------------------------------------------------------

variable (σ)

/-- The reader `p` stands at `st` in the stream: its handle `participants[i]` matches, and the
connection followed by `later` is the rest of the stream. -/
structure Stands (p q i : Nat) (st : Nat × Phase) (s : State) (c : Chans) (later : List Msg) :
    Prop where
  valid : σ.Valid st
  handle : s.participants[i]? = some (σ.handle q st)
  rest : c (q, p) ++ later = σ.msgs.drop st.1
  arrived : st.2 = .pending → c (q, p) ≠ []

variable {σ} {p q i k : Nat} {s s' : State} {c c' : Chans} {later : List Msg}

/-- The reader stands in a state that differs in the handle only, as its new position and phase
call for. -/
theorem Stands.set (hS : σ.Stands p q i st s c later) {st' : Nat × Phase} {H : Handle}
    (hs : s'.participants = s.participants.set i H) (hH : H = σ.handle q st') (hv : σ.Valid st')
    (hr : c' (q, p) ++ later = σ.msgs.drop st'.1) (ha : st'.2 = .pending → c' (q, p) ≠ []) :
    σ.Stands p q i st' s' c' later :=
  ⟨hv, by rw [hs, ← hH]; exact List.getElem?_set_self (List.getElem?_eq_some_iff.mp hS.handle).1,
    hr, ha⟩

/-- The reader still stands where it was in a state with the same handles. -/
theorem Stands.same (hS : σ.Stands p q i st s c later) (hs : s'.participants = s.participants) :
    σ.Stands p q i st s' c later :=
  ⟨hS.valid, hs ▸ hS.handle, hS.rest, hS.arrived⟩

/-- A message of the stream arrives. -/
theorem Stands.arrive {m : Msg} (hS : σ.Stands p q i st s c (m :: later)) :
    σ.Stands p q i st s ((Act.push (q, p) m).apply c) later where
  valid := hS.valid
  handle := hS.handle
  rest := by simpa [Act.apply, Act.edit] using hS.rest
  arrived := by simp [Act.apply, Act.edit]

theorem push_other {m : Msg} (hpq : p ≠ q) : (Act.push (p, q) m).apply c (q, p) = c (q, p) := by
  simp [Act.apply, Act.edit, hpq.symm]

theorem pop_self : (Act.pop (q, p)).apply c (q, p) = (c (q, p)).tail := by
  simp [Act.apply, Act.edit]

-- ---------------------------------------------------------------------------
-- Every call is a move
-- ---------------------------------------------------------------------------

/-- Past the end, every call returns 0 and changes nothing. -/
theorem Stands.progress_ended (hS : σ.Stands p q i (k, .ended) s c later) (req : Req) :
    ∃ r s' c' st', Runs p (req.run i) s c r s' c' ∧
      σ.Moves req (!(c (q, p)).isEmpty) (k, .ended) r st' ∧ σ.Stands p q i st' s' c' later := by
  have hi := hS.handle
  have hr := σ.fin.handle_closedRd q
  cases req with
  | probe size b =>
    exact ⟨_, _, _, _, Req.run_probe (probeHandle_closed b hi hr (σ.fin.handle_probed_snd q)),
      .probe_ended, hS⟩
  | receive cap =>
    exact ⟨_, _, _, _, Req.run_receive (receiveFromHandle_closed _ 0 hi hr) rfl, .receive_ended, hS⟩

/-- With a size pending, the handle caches the size of the frame at the reader's position. -/
theorem Stands.pending_handle (hS : σ.Stands p q i (k, .pending) s c later) :
    ∃ f, σ.frames[k]? = some f ∧ s.participants[i]? = some { peer := q, probed := (true, f.length) } :=
  ⟨_, List.getElem?_eq_getElem hS.valid, handle_pending (List.getElem?_eq_getElem hS.valid) ▸ hS.handle⟩

/-- With a size pending, its frame is the next message on the connection. -/
theorem Stands.pending_chan {f : Bytes} (hS : σ.Stands p q i (k, .pending) s c later)
    (hf : σ.frames[k]? = some f) :
    ∃ l, c (q, p) = .frame f :: l ∧ l ++ later = σ.msgs.drop (k + 1) := by
  have hrest := hS.rest
  rw [msgs_drop_of_getElem? hf] at hrest
  cases hc : c (q, p) with
  | nil => exact absurd hc (hS.arrived rfl)
  | cons m l =>
    rw [hc, List.cons_append, List.cons.injEq] at hrest
    exact ⟨l, by rw [hrest.1], hrest.2⟩

/-- With a size pending, a probe reports it again, and a receive takes the frame or leaves it
pending. -/
theorem Stands.progress_pending (hS : σ.Stands p q i (k, .pending) s c later) (req : Req) :
    ∃ r s' c' st', Runs p (req.run i) s c r s' c' ∧
      σ.Moves req (!(c (q, p)).isEmpty) (k, .pending) r st' ∧ σ.Stands p q i st' s' c' later := by
  obtain ⟨f, hf, hi⟩ := hS.pending_handle
  obtain ⟨l, hc, hl⟩ := hS.pending_chan hf
  rw [hc]
  cases req with
  | probe size b =>
    exact ⟨_, _, _, _, Req.run_probe (probeHandle_pending b hi rfl
      (List.length_pos.mpr (ne_nil_of_getElem? hf)).ne'), .probe_pending hf, hS⟩
  | receive cap =>
    by_cases hcap : cap < f.length
    · exact ⟨_, _, _, _, Req.run_receive (receiveFromHandle_nomem _ 0 hi rfl rfl hcap) rfl,
        .receive_nomem hf hcap nofun, hS.same rfl⟩
    · exact ⟨_, _, _, _, Req.run_receive (receiveFromHandle_pending _ 0 hi rfl rfl hc
        (Nat.not_lt.mp hcap)) (by simp), .receive_frame hf (Nat.not_lt.mp hcap) nofun,
        hS.set rfl rfl (Nat.succ_le_of_lt hS.valid) (by simpa [pop_self, hc] using hl) nofun⟩

/-- On an idle handle with nothing arrived, a blocking call waits and a non-blocking probe would
block. -/
theorem Stands.progress_idle_empty (hS : σ.Stands p q i (k, .idle) s c later)
    (hc : c (q, p) = []) (req : Req) :
    (∀ r s' c', ¬ Runs p (req.run i) s c r s' c') ∨
    ∃ r s' c' st', Runs p (req.run i) s c r s' c' ∧
      σ.Moves req (!(c (q, p)).isEmpty) (k, .idle) r st' ∧ σ.Stands p q i st' s' c' later := by
  have hi : s.participants[i]? = some (.fresh q) := hS.handle
  rw [hc]
  cases req with
  | probe size b =>
    cases b with
    | false => exact .inr ⟨_, _, _, _, Req.run_probe (probeHandle_wouldBlock hi
        (Handle.fresh_idle q) hc), .probe_wouldBlock, hS.same rfl⟩
    | true =>
      obtain ⟨_, ht⟩ : ∃ k, (probeHandle i size true).run s = .probe q true k :=
        probeHandle_starts hi (Handle.fresh_idle q)
      exact .inl fun _ _ _ => Runs.not_of_wait ht hc _
  | receive cap =>
    obtain ⟨_, ht⟩ : ∃ k, (receiveFromHandle i (some fun _ => 0) 0 cap).run s = .probe q true k :=
      receiveFromHandle_starts _ 0 hi (Handle.fresh_idle q)
    exact .inl fun _ _ _ => Runs.not_of_wait ht hc _

/-- On an idle handle with the next frame arrived, a probe caches its size, and a receive takes
it or leaves it pending. -/
theorem Stands.progress_idle_frame (hS : σ.Stands p q i (k, .idle) s c later) {f : Bytes}
    {l : List Msg} (hf : σ.frames[k]? = some f) (hc : c (q, p) = .frame f :: l) (req : Req) :
    ∃ r s' c' st', Runs p (req.run i) s c r s' c' ∧
      σ.Moves req (!(c (q, p)).isEmpty) (k, .idle) r st' ∧ σ.Stands p q i st' s' c' later := by
  have hi : s.participants[i]? = some (.fresh q) := hS.handle
  have hne := ne_nil_of_getElem? hf
  have hp : σ.Valid (k, .pending) := (List.getElem?_eq_some_iff.mp hf).1
  have ha : c (q, p) ≠ [] := by simp [hc]
  rw [hc]
  cases req with
  | probe size b =>
    exact ⟨_, _, _, _, Req.run_probe (probeHandle_header b hi (Handle.fresh_idle q) hc hne),
      .probe_header hf, hS.set rfl (handle_pending hf).symm hp hS.rest fun _ => ha⟩
  | receive cap =>
    by_cases hcap : cap < f.length
    · exact ⟨_, _, _, _, Req.run_receive (receiveFromHandle_nomem_idle _ 0 hi
        (Handle.fresh_idle q) hc hne hcap) rfl, .receive_nomem hf hcap nofun,
        hS.set rfl (handle_pending hf).symm hp hS.rest fun _ => ha⟩
    · have hrest := hS.rest
      rw [msgs_drop_of_getElem? hf, hc, List.cons_append, List.cons.injEq] at hrest
      exact ⟨_, _, _, _, Req.run_receive (receiveFromHandle_frame _ 0 hi (Handle.fresh_idle q) hc
        hne (Nat.not_lt.mp hcap)) (by simp), .receive_frame hf (Nat.not_lt.mp hcap) nofun,
        ⟨Nat.succ_le_of_lt hp, hS.handle, by simpa [pop_self, hc] using hrest.2, nofun⟩⟩

/-- On an idle handle with the end arrived, every call reads it and returns 0. -/
theorem Stands.progress_idle_end (hS : σ.Stands p q i (σ.frames.length, .idle) s c later)
    (hpq : p ≠ q) {l : List Msg} (hc : c (q, p) = σ.fin.msg :: l) (req : Req) :
    ∃ r s' c' st', Runs p (req.run i) s c r s' c' ∧
      σ.Moves req (!(c (q, p)).isEmpty) (σ.frames.length, .idle) r st' ∧
      σ.Stands p q i st' s' c' later := by
  have hi : s.participants[i]? = some (.fresh q) := hS.handle
  have hv : σ.Valid (σ.frames.length, .ended) := rfl
  have hpush : (Act.push (p, q) (.frame [])).apply c (q, p) ++ later = σ.msgs.drop σ.frames.length := by
    rw [push_other hpq]; exact hS.rest
  rw [hc]
  cases hfin : σ.fin <;> rw [hfin] at hc <;> have hH := congrArg (StreamEnd.handle q) hfin <;>
    cases req
  case eos.probe size b =>
    exact ⟨_, _, _, _, Req.run_probe (probeHandle_eos b hi (Handle.fresh_idle q) hc), .probe_end,
      hS.set rfl hH.symm hv hS.rest nofun⟩
  case eos.receive cap =>
    exact ⟨_, _, _, _, Req.run_receive (receiveFromHandle_eos _ 0 hi (Handle.fresh_idle q) hc) rfl,
      .receive_end, hS.set rfl hH.symm hv hS.rest nofun⟩
  case closed.probe size b =>
    exact ⟨_, _, _, _, Req.run_probe (probeHandle_eof b hi (Handle.fresh_idle q) rfl hc),
      .probe_end, hS.set rfl hH.symm hv hpush nofun⟩
  case closed.receive cap =>
    exact ⟨_, _, _, _, Req.run_receive (receiveFromHandle_eof _ 0 hi (Handle.fresh_idle q) rfl hc)
      rfl, .receive_end, hS.set rfl hH.symm hv hpush nofun⟩
  case reset.probe size b =>
    exact ⟨_, _, _, _, Req.run_probe (probeHandle_reset b hi (Handle.fresh_idle q) rfl hc),
      .probe_end, hS.set rfl hH.symm hv hpush nofun⟩
  case reset.receive cap =>
    exact ⟨_, _, _, _, Req.run_receive (receiveFromHandle_reset _ 0 hi (Handle.fresh_idle q) rfl
      hc) rfl, .receive_end, hS.set rfl hH.symm hv hpush nofun⟩

/-- From wherever the reader stands, a call either waits for the stream, or returns as `Moves`
says and leaves the reader standing where it moved to. -/
theorem Stands.progress (hS : σ.Stands p q i st s c later) (hpq : p ≠ q) (req : Req) :
    (∀ r s' c', ¬ Runs p (req.run i) s c r s' c') ∨
    ∃ r s' c' st', Runs p (req.run i) s c r s' c' ∧
      σ.Moves req (!(c (q, p)).isEmpty) st r st' ∧ σ.Stands p q i st' s' c' later := by
  obtain ⟨k, ph⟩ := st
  cases ph with
  | ended => exact .inr (hS.progress_ended req)
  | pending => exact .inr (hS.progress_pending req)
  | idle =>
    by_cases hc : c (q, p) = []
    · exact hS.progress_idle_empty hc req
    obtain ⟨m, l, hc⟩ := List.exists_cons_of_ne_nil hc
    have hrest := hS.rest
    rw [hc, List.cons_append] at hrest
    rcases Nat.lt_or_ge k σ.frames.length with hk | hk
    · obtain ⟨f, hf⟩ : ∃ f, σ.frames[k]? = some f := ⟨_, List.getElem?_eq_getElem hk⟩
      rw [msgs_drop_of_getElem? hf, List.cons.injEq] at hrest
      exact .inr (hS.progress_idle_frame hf (hrest.1 ▸ hc) req)
    · obtain rfl : k = σ.frames.length := le_antisymm hS.valid hk
      rw [msgs_drop_length, List.cons.injEq] at hrest
      exact .inr (hS.progress_idle_end hpq (hrest.1 ▸ hc) req)

/-- Every call that returns makes the move `Moves` allows. -/
theorem Stands.call (hS : σ.Stands p q i st s c later) (hpq : p ≠ q) {r : Reply}
    (h : Runs p (req.run i) s c r s' c') :
    ∃ st', σ.Moves req (!(c (q, p)).isEmpty) st r st' ∧ σ.Stands p q i st' s' c' later := by
  rcases hS.progress hpq req with hw | ⟨r₀, s₀, c₀, st', h₀, hm, hS'⟩
  · exact absurd h (hw _ _ _)
  · obtain ⟨rfl, rfl, rfl⟩ := h.det h₀
    exact ⟨st', hm, hS'⟩

end PeerStream

-- ---------------------------------------------------------------------------
-- Sessions
-- ---------------------------------------------------------------------------

/-- The reader makes the calls `reqs`, returning `rs`, while `later` arrives between them at any
pace. -/
inductive Session (p q i : Nat) :
    List Req → State → Chans → List Msg → List Reply → State → Chans → Prop
  | done {s c later} : Session p q i [] s c later [] s c
  | arrive {reqs s c m later rs s' c'} :
      Session p q i reqs s ((Act.push (q, p) m).apply c) later rs s' c' →
      Session p q i reqs s c (m :: later) rs s' c'
  | call {req reqs s c later r rs s₁ c₁ s' c'} :
      Runs p (req.run i) s c r s₁ c₁ → Session p q i reqs s₁ c₁ later rs s' c' →
      Session p q i (req :: reqs) s c later (r :: rs) s' c'

section Sessions

variable {σ : PeerStream} {p q i : Nat} {reqs : List Req} {rs : List Reply} {st : Nat × Phase}
  {s s' : State} {c c' : Chans} {later : List Msg}

/-- A session is a trace of the reader, and leaves it standing in the stream. -/
theorem Session.trace (hs : Session p q i reqs s c later rs s' c') (hpq : p ≠ q)
    (hS : σ.Stands p q i st s c later) :
    ∃ st' later', σ.Trace reqs st rs st' ∧ σ.Stands p q i st' s' c' later' := by
  induction hs generalizing st with
  | done => exact ⟨st, _, .nil, hS⟩
  | arrive _ ih => exact ih hS.arrive
  | call h _ ih =>
    obtain ⟨st₁, hm, hS₁⟩ := hS.call hpq h
    obtain ⟨st', later', ht, hS'⟩ := ih hS₁
    exact ⟨st', later', .cons hm ht, hS'⟩

/-- A fresh handle at the start of the stream. -/
theorem PeerStream.stands_start (hi : s.participants[i]? = some (.fresh q))
    (hc : c (q, p) ++ later = σ.msgs) : σ.Stands p q i (0, .idle) s c later :=
  ⟨Nat.zero_le _, hi, hc, nofun⟩

end Sessions

open PeerStream

/-- The framing helper keeps frame boundaries: every session receives the stream's frames in order,
each once, and a failed call takes nothing. -/
theorem reads_frames_in_order (σ : PeerStream) {p q i : Nat} (hpq : p ≠ q) :
    (∀ {reqs s c later rs s' c'}, s.participants[i]? = some (.fresh q) →
      c (q, p) ++ later = σ.msgs → Session p q i reqs s c later rs s' c' →
      (∃ st later', σ.Stands p q i st s' c' later') ∧
      rs.flatMap Reply.taken <+: σ.frames ∧
      ((∃ r ∈ rs, r.ret = 0) → rs.flatMap Reply.taken = σ.frames) ∧
      rs.Chain' fun r r' => r.ret = 0 → r'.ret = 0) ∧
    (∀ {st : Nat × Phase} {s : State} {c : Chans} {later : List Msg} {req : Req} {r : Reply}
      {s' : State} {c' : Chans}, σ.Stands p q i st s c later → Runs p (req.run i) s c r s' c' →
      r.ret = -1 →
      c' (q, p) = c (q, p) ∧
      ((r = .received (-1) [] ENOMEM ∧ σ.Stands p q i (st.1, .pending) s' c' later) ∨
        ((∃ size, r = .probed (-1) size EWOULDBLOCK) ∧ σ.Stands p q i st s' c' later))) ∧
    (∀ {k s c later f cap}, σ.Stands p q i (k, .pending) s c later → σ.frames[k]? = some f →
      f.length ≤ cap →
      ∃ e s' c', Runs p ((Req.receive cap).run i) s c (.received f.length f e) s' c') ∧
    (∀ {k s c later size b}, σ.Stands p q i (k, .pending) s c later →
      ∃ f, σ.frames[k]? = some f ∧
        Runs p ((Req.probe size b).run i) s c (.probed sizeofSizeT f.length s.errno) s c) := by
  refine ⟨fun hi hc hs => ?_, @fun _ _ c _ _ _ _ _ hS h hr => ?_, @fun _ _ c _ _ cap hS hf hcap => ?_,
    fun hS => ?_⟩
  · obtain ⟨⟨k, ph⟩, later', ht, hS'⟩ := hs.trace hpq (stands_start hi hc)
    have htake := ht.taken
    simp only [List.take_zero, List.nil_append] at htake
    refine ⟨⟨_, _, hS'⟩, htake ▸ List.take_prefix _ _, fun h₀ => ?_, ht.chain⟩
    have hend := ht.ended h₀
    simp only at hend
    subst hend
    rw [htake, show k = σ.frames.length from ht.valid (Nat.zero_le _), List.take_length]
  · obtain ⟨st', hm, hS'⟩ := hS.call hpq h
    generalize (!(c (q, p)).isEmpty) = a at hm
    cases hm with
    | probe_wouldBlock => exact ⟨List.append_cancel_right (hS'.rest.trans hS.rest.symm), .inr ⟨⟨_, rfl⟩, hS'⟩⟩
    | receive_nomem => exact ⟨List.append_cancel_right (hS'.rest.trans hS.rest.symm), .inl ⟨rfl, hS'⟩⟩
    | receive_frame hf =>
      have := List.length_pos.mpr (ne_nil_of_getElem? hf)
      simp only [Reply.ret] at hr
      omega
    | _ => simp [Reply.ret, sizeofSizeT] at hr
  · obtain ⟨r, s', c', st', h, hm, -⟩ := hS.progress_pending (.receive cap)
    generalize (!(c (q, p)).isEmpty) = a at hm
    cases hm with
    | receive_nomem hf' hlt => cases hf.symm.trans hf'; omega
    | receive_frame hf' => cases hf.symm.trans hf'; exact ⟨_, _, _, h⟩
  · obtain ⟨f, hf, hi⟩ := hS.pending_handle
    exact ⟨f, hf, Req.run_probe (probeHandle_pending _ hi rfl
      (List.length_pos.mpr (ne_nil_of_getElem? hf)).ne')⟩

/-- A stream `[7]` then a size-0 frame, read by two one-byte receives. -/
theorem reads_frames_in_order_one_frame :
    let σ : PeerStream := ⟨[[7]], .eos, by decide⟩
    ∃ rs s' c', Session 0 1 0 [.receive 1, .receive 1] { participants := [.fresh 1] }
      (fun ch => if ch = (1, 0) then σ.msgs else []) [] rs s' c' ∧ rs.flatMap Reply.taken = [[7]] := by
  intro σ
  let c : Chans := fun ch => if ch = (1, 0) then σ.msgs else []
  have h₁ := Req.run_receive (d := [7]) (receiveFromHandle_frame (p := 0) (i := 0) (s := { participants := [.fresh 1] })
    (c := c) (l := [.frame []]) (fun _ => 0) 0 rfl (Handle.fresh_idle 1) rfl (by decide) (le_refl 1))
    (by decide)
  have hs : Session 0 1 0 [.receive 1, .receive 1] _ c [] _ _ _ :=
    .call h₁ (.call (Req.run_receive (d := []) (receiveFromHandle_eos (p := 0) (i := 0)
      (s := { participants := [.fresh 1] }) (c := (Act.pop (1, 0)).apply c) (l := [])
      (some fun _ => 0) 0 rfl (Handle.fresh_idle 1) rfl) rfl) .done)
  exact ⟨_, _, _, hs, ((reads_frames_in_order σ (by decide)).1 rfl (by simp [c]) hs).2.2.1
    ⟨_, List.mem_cons_of_mem _ (List.mem_singleton_self _), rfl⟩⟩
