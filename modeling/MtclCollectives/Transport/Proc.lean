-- SUMMARY: A participant's run as a tree of handle operations (send, probe, receive, shutdown), with its monad and the predicates read off such trees.
import MtclCollectives.Transport.Buffer

/-!
# Processes

A participant's code as a tree `Proc α` of the handle operations it performs, one subtree per
answer the transport can give (spec §6); a leaf returns a value or is a `crash`.
-/

-- ---------------------------------------------------------------------------
-- errno
-- ---------------------------------------------------------------------------

/-- `EBADF` (Linux `<errno.h>`). -/
def EBADF : Nat := 9
/-- `EAGAIN` (Linux `<errno.h>`). -/
def EAGAIN : Nat := 11
/-- `EWOULDBLOCK`, the same value as `EAGAIN` on Linux. -/
def EWOULDBLOCK : Nat := 11
/-- `ENOMEM` (Linux `<errno.h>`). -/
def ENOMEM : Nat := 12
/-- `EFAULT` (Linux `<errno.h>`). -/
def EFAULT : Nat := 14
/-- `EINVAL` (Linux `<errno.h>`). -/
def EINVAL : Nat := 22
/-- `ECONNRESET` (Linux `<errno.h>`). -/
def ECONNRESET : Nat := 104

-- ---------------------------------------------------------------------------
-- The transport's answers
-- ---------------------------------------------------------------------------

/-- Modelled from the spec: what `Handle::probe(size, blocking)` reports. -/
inductive ProbeReply where
  /-- A header was read (`r = sizeof(size_t) > 0`); the frame holds `size` bytes. -/
  | header (size : Nat)
  /-- The connection is closed (`r = 0`). -/
  | eof
  /-- The probe failed (`r = -1`) and set `errno`. -/
  | fail (errno : Nat)
  deriving DecidableEq, Repr

/-- Modelled from the spec: what stands on a connection, a frame (of size 0 for a peer's `close`),
or its end by close or reset. -/
inductive Msg where
  | frame (payload : Bytes)
  | eof
  | reset
  deriving DecidableEq, Repr

/-- What a probe reports when `m` is the next thing on the connection. -/
def Msg.reply : Msg → ProbeReply
  | .frame p => .header p.length
  | .eof => .eof
  | .reset => .fail ECONNRESET

@[simp] theorem Msg.reply_frame (p : Bytes) : (Msg.frame p).reply = .header p.length := rfl
@[simp] theorem Msg.reply_eof : Msg.eof.reply = .eof := rfl
@[simp] theorem Msg.reply_reset : Msg.reset.reply = .fail ECONNRESET := rfl

-- ---------------------------------------------------------------------------
-- Process trees
-- ---------------------------------------------------------------------------

/-- A participant's code, as the tree of the handle operations it performs. `peer` names the
connection by the team rank at its other end. -/
inductive Proc (α : Type) where
  /-- The code returned `a`. -/
  | done (a : α)
  /-- An uncaught exception or undefined behaviour. -/
  | crash
  /-- `Handle::send`: one frame with payload `frame`; the answer is the return value. -/
  | send (peer : Nat) (frame : Bytes) (k : Int → Proc α)
  /-- `Handle::probe(size, blocking)`. -/
  | probe (peer : Nat) (blocking : Bool) (k : ProbeReply → Proc α)
  /-- `Handle::receive(buff, cap)`: the payload read, or `none` when it failed. -/
  | receive (peer : Nat) (cap : Nat) (k : Option Bytes → Proc α)
  /-- `Handle::close` on the write side: the peer reads a frame of size 0. -/
  | shutdown (peer : Nat) (k : Proc α)

namespace Proc

variable {α β γ : Type}

/-- Sequencing of process trees: `f` runs where `t` returns. -/
def bind : Proc α → (α → Proc β) → Proc β
  | done a, f => f a
  | crash, _ => crash
  | send q m k, f => send q m fun r => bind (k r) f
  | probe q b k, f => probe q b fun r => bind (k r) f
  | receive q c k, f => receive q c fun r => bind (k r) f
  | shutdown q k, f => shutdown q (bind k f)

instance : Monad Proc where
  pure := done
  bind := bind

@[simp] theorem pure_eq (a : α) : (pure a : Proc α) = done a := rfl
@[simp] theorem done_bind (a : α) (f : α → Proc β) : (done a >>= f) = f a := rfl
@[simp] theorem map_done (f : α → β) (a : α) : f <$> done a = done (f a) := rfl
@[simp] theorem crash_bind (f : α → Proc β) : (crash >>= f) = crash := rfl
@[simp] theorem send_bind (q : Nat) (m : Bytes) (k : Int → Proc α) (f : α → Proc β) :
    (send q m k >>= f) = send q m fun r => k r >>= f := rfl
@[simp] theorem probe_bind (q : Nat) (b : Bool) (k : ProbeReply → Proc α) (f : α → Proc β) :
    (probe q b k >>= f) = probe q b fun r => k r >>= f := rfl
@[simp] theorem receive_bind (q c : Nat) (k : Option Bytes → Proc α) (f : α → Proc β) :
    (receive q c k >>= f) = receive q c fun r => k r >>= f := rfl
@[simp] theorem shutdown_bind (q : Nat) (k : Proc α) (f : α → Proc β) :
    (shutdown q k >>= f) = shutdown q (k >>= f) := rfl

theorem bind_assoc (t : Proc α) (f : α → Proc β) (g : β → Proc γ) :
    t >>= f >>= g = t >>= fun a => f a >>= g := by
  induction t with
  | done a => rfl
  | crash => rfl
  | send q m k ih => simp only [send_bind, ih]
  | probe q b k ih => simp only [probe_bind, ih]
  | receive q c k ih => simp only [receive_bind, ih]
  | shutdown q k ih => simp only [shutdown_bind, ih]

theorem bind_pure (t : Proc α) : t >>= pure = t := by
  induction t with
  | done a => rfl
  | crash => rfl
  | send q m k ih => simp only [send_bind, ih]
  | probe q b k ih => simp only [probe_bind, ih]
  | receive q c k ih => simp only [receive_bind, ih]
  | shutdown q k ih => simp only [shutdown_bind, ih]

instance : LawfulMonad Proc :=
  LawfulMonad.mk' Proc (fun t => bind_pure t) (fun _ _ => rfl) (fun t f g => bind_assoc t f g)

-- ---------------------------------------------------------------------------
-- Blocking code
-- ---------------------------------------------------------------------------

/-- Every probe in the tree is a blocking one. Code of this kind only ever waits for what its
peers send, so what it computes cannot depend on timing. -/
inductive Blocking : Proc α → Prop
  | done (a : α) : Blocking (done a)
  | crash : Blocking crash
  | send {q m k} : (∀ r, Blocking (k r)) → Blocking (send q m k)
  | probe {q k} : (∀ r, Blocking (k r)) → Blocking (probe q true k)
  | receive {q c k} : (∀ r, Blocking (k r)) → Blocking (receive q c k)
  | shutdown {q k} : Blocking k → Blocking (shutdown q k)

theorem Blocking.bind {t : Proc α} {f : α → Proc β} (ht : Blocking t) (hf : ∀ a, Blocking (f a)) :
    Blocking (t >>= f) := by
  induction ht with
  | done a => exact hf a
  | crash => exact .crash
  | send _ ih => exact .send ih
  | probe _ ih => exact .probe ih
  | receive _ ih => exact .receive ih
  | shutdown _ ih => exact .shutdown ih

-- ---------------------------------------------------------------------------
-- Sending code
-- ---------------------------------------------------------------------------

/-- When every send succeeds, `t` performs exactly the sends `l`, in order, and nothing else,
and returns `a`. A send succeeds when `Handle::send` returns a non-negative count. -/
inductive Emits : Proc α → List (Nat × Bytes) → α → Prop
  | done (a : α) : Emits (done a) [] a
  | send {q m k l a} : (∀ r : Int, 0 ≤ r → Emits (k r) l a) → Emits (send q m k) ((q, m) :: l) a

theorem Emits.bind {t : Proc α} {f : α → Proc β} {l l' a b} (ht : Emits t l a) (hf : Emits (f a) l' b) :
    Emits (t >>= f) (l ++ l') b := by
  induction ht with
  | done a => exact hf
  | send _ ih => exact .send fun r hr => ih r hr hf

/-- Whatever each send returns, `t` performs exactly the sends `l`, in order, and nothing else,
and ends in a leaf satisfying `P`. -/
inductive Sends (P : α → Prop) : Proc α → List (Nat × Bytes) → Prop
  | done {a : α} : P a → Sends P (done a) []
  | send {q m k l} : (∀ r : Int, Sends P (k r) l) → Sends P (send q m k) ((q, m) :: l)

theorem Sends.bind {P : α → Prop} {Q : β → Prop} {t : Proc α} {f : α → Proc β} {l l'}
    (ht : Sends P t l) (hf : ∀ a, P a → Sends Q (f a) l') : Sends Q (t >>= f) (l ++ l') := by
  induction ht with
  | done ha => exact hf _ ha
  | send _ ih => exact .send ih

end Proc
