-- SUMMARY: The handle fields the collectives read and write, a participant's state, and the state monad its collective code runs in.
import MtclCollectives.Transport.Proc

/-!
# Handles and participants

The fields of a handle the code reads and writes (`probed`, `closed_rd`), the collective's
state, and `CollM := StateT State Proc`; `Handle` is not in `src/`, so its fields and `close`
follow the spec (§3, §6).
-/

/-- The fields of a `Handle` that the collective code reads and writes. `peer` is the team rank
at the other end of the connection. -/
structure Handle where
  peer : Nat
  probed : Bool × Nat := (false, 0)
  closedRd : Bool := false
  closedWr : Bool := false
  deriving DecidableEq, Repr

namespace Handle

/-- A handle to `peer` with nothing probed and both sides open. -/
def fresh (peer : Nat) : Handle := { peer }

/-- Modelled from the spec: `Handle::close(close_wr, close_rd)` closes each side once, and the write
side's close sends end-of-stream. -/
def close (h : Handle) (wr rd : Bool) : Proc Handle :=
  let h' := { h with closedWr := h.closedWr || wr, closedRd := h.closedRd || rd }
  if wr && !h.closedWr then .shutdown h.peer (.done h') else .done h'

/-- `Handle::send(buff, size)`, where `data` are the `size` bytes at `buff`: one frame. -/
def send (h : Handle) (data : Bytes) : Proc Int :=
  .send h.peer data .done

/-- `Handle::probe(size, blocking)`. -/
def probe (h : Handle) (blocking : Bool) : Proc ProbeReply :=
  .probe h.peer blocking .done

/-- `Handle::receive(buff, size)`: the payload read, at most `size` bytes of it. -/
def receive (h : Handle) (size : Nat) : Proc (Option Bytes) :=
  .receive h.peer size .done

/-- Nothing is probed on the handle and its read side is open: where a handle stands between
two frames. -/
def Idle (h : Handle) : Prop := h.probed = (false, 0) ∧ h.closedRd = false

theorem Idle.eq {h : Handle} (hh : h.Idle) : h = { h with probed := (false, 0), closedRd := false } := by
  cases h; cases hh; simp_all

theorem fresh_idle (q : Nat) : (fresh q).Idle := ⟨rfl, rfl⟩

@[simp] theorem fresh_peer (q : Nat) : (fresh q).peer = q := rfl
@[simp] theorem fresh_probed (q : Nat) : (fresh q).probed = (false, 0) := rfl
@[simp] theorem fresh_closedRd (q : Nat) : (fresh q).closedRd = false := rfl
@[simp] theorem fresh_closedWr (q : Nat) : (fresh q).closedWr = false := rfl

end Handle

/-- What a participant's collective code reads and writes besides its buffers: the handles of
`participants`, `FanInGeneric::probed_idx`, `FanOutGeneric::current`, and `errno`. -/
structure State where
  participants : List Handle
  probedIdx : Int := -1
  current : Nat := 0
  errno : Nat := 0
  deriving DecidableEq, Repr

/-- The fields of a collective object its code only reads; `uniqtag` is read by no modelled code. -/
structure Config where
  nparticipants : Nat
  rank : Int
  root : Bool
  one_le : 1 ≤ nparticipants

/-- A participant's collective code: a state transformer over the tree of its handle
operations. -/
abbrev CollM := StateT State Proc

namespace CollM

variable {α : Type}

/-- Undefined behaviour, or an exception nothing catches. -/
def crash : CollM α := fun _ => .crash

/-- `participants.at(i)`, which throws past the end of the vector. -/
def participantsAt (i : Nat) : CollM Handle := do
  match (← get).participants[i]? with
  | some h => pure h
  | none => crash

/-- Store the fields of the handle at `participants[i]`. -/
def setParticipant (i : Nat) (h : Handle) : CollM Unit :=
  modify fun s => { s with participants := s.participants.set i h }

/-- `errno = e`. -/
def setErrno (e : Nat) : CollM Unit :=
  modify fun s => { s with errno := e }

/-- The `len` bytes at `p + off`; a null pointer can be read for no bytes only. -/
def readPtr (ptr : Option Buf) (off len : Nat) : CollM Bytes :=
  match ptr with
  | some b => pure (b.slice off len)
  | none => if len = 0 then pure [] else crash

/-- `d` stored at `p + off`; nothing can be stored through a null pointer. -/
def writePtr (ptr : Option Buf) (off : Nat) (d : Bytes) : CollM (Option Buf) :=
  match ptr with
  | some b => pure (some (b.write off d))
  | none => if d = [] then pure none else crash

/-- `a % b` on `size_t`; a division by zero is undefined behaviour. -/
def sizeMod (a b : Nat) : CollM Nat :=
  if b = 0 then crash else pure (a % b)

/-- `participants.at(i)->close(wr, rd)`. -/
def closeAt (i : Nat) (wr rd : Bool) : CollM Unit := do
  let h ← participantsAt i
  let h ← StateT.lift (h.close wr rd)
  setParticipant i h

-- ---------------------------------------------------------------------------
-- Running the primitives
-- ---------------------------------------------------------------------------

@[simp] theorem run_crash (s : State) : (crash : CollM α).run s = .crash := rfl

theorem run_participantsAt {s : State} {i : Nat} {h : Handle} (hi : s.participants[i]? = some h) :
    (participantsAt i).run s = .done (h, s) := by
  simp [participantsAt, hi]

theorem run_participantsAt_none {s : State} {i : Nat} (hi : s.participants[i]? = none) :
    (participantsAt i).run s = .crash := by
  simp [participantsAt, hi]

theorem run_participantsAt_set {s : State} {i : Nat} (h : Handle) (hi : i < s.participants.length) :
    (participantsAt i).run { s with participants := s.participants.set i h } =
      .done (h, { s with participants := s.participants.set i h }) := by
  simp [participantsAt, List.getElem?_set_self hi]

/-- Storing back the handle already at `participants[i]` changes nothing. -/
theorem set_self {s : State} {i : Nat} {h : Handle} (hi : s.participants[i]? = some h) :
    { s with participants := s.participants.set i h } = s := by
  have : s.participants.set i h = s.participants := List.ext_getElem? fun j => by
    by_cases hj : i = j
    · subst hj; rw [List.getElem?_set_self (List.getElem?_eq_some_iff.mp hi).1, hi]
    · rw [List.getElem?_set_ne hj]
  simp [this]

@[simp] theorem run_setParticipant (s : State) (i : Nat) (h : Handle) :
    (setParticipant i h).run s = .done ((), { s with participants := s.participants.set i h }) :=
  rfl

@[simp] theorem run_readPtr (b : Buf) (off len : Nat) (s : State) :
    (readPtr (some b) off len).run s = .done (b.slice off len, s) := rfl

@[simp] theorem run_writePtr (b : Buf) (off : Nat) (d : Bytes) (s : State) :
    (writePtr (some b) off d).run s = .done (some (b.write off d), s) := rfl

@[simp] theorem run_sizeMod {b : Nat} (a : Nat) (hb : 0 < b) (s : State) :
    (sizeMod a b).run s = .done (a % b, s) := by
  simp [sizeMod, Nat.pos_iff_ne_zero.mp hb]

@[simp] theorem run_setErrno (s : State) (e : Nat) :
    (setErrno e).run s = .done ((), { s with errno := e }) := rfl

end CollM
