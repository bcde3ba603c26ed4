-- SUMMARY: Two runs of the same code, on buffers that agree on given ranges, taking the same steps over every answer the transport may give: how the development states which bytes of a buffer the code reads and writes.
import MtclCollectives.Framing

/-!
# Two runs in lockstep

Which bytes a call reads and writes is answered by running it twice on buffers that agree on a
range, over every answer the transport's contract allows (spec §6): `CollM.Lockstep` is that
two-run relation, with one lemma per primitive and per framing helper.
-/

namespace Proc

variable {α β γ δ : Type}

/-- Two process trees that take the same steps, never crash, and end related by `R`, whatever the
transport answers within its contract. -/
inductive Lockstep (R : α → β → Prop) : Proc α → Proc β → Prop
  | done {a b} : R a b → Lockstep R (done a) (done b)
  | send {q m k₁ k₂} : (∀ r, Lockstep R (k₁ r) (k₂ r)) → Lockstep R (send q m k₁) (send q m k₂)
  | probe {q bl k₁ k₂} : (∀ r, Lockstep R (k₁ r) (k₂ r)) →
      Lockstep R (probe q bl k₁) (probe q bl k₂)
  | receive {q n k₁ k₂} : Lockstep R (k₁ none) (k₂ none) →
      (∀ d : Bytes, d.length ≤ n → Lockstep R (k₁ (some d)) (k₂ (some d))) →
      Lockstep R (receive q n k₁) (receive q n k₂)
  | shutdown {q k₁ k₂} : Lockstep R k₁ k₂ → Lockstep R (shutdown q k₁) (shutdown q k₂)

/-- Some answers of the transport within its contract lead `t` to `crash`: an out-of-range
`participants.at(i)`, a division by zero, or a copy through a null pointer. -/
inductive CanCrash : Proc α → Prop
  | crash : CanCrash crash
  | send {q m k} (r : Int) : CanCrash (k r) → CanCrash (send q m k)
  | probe {q bl k} (r : ProbeReply) : CanCrash (k r) → CanCrash (probe q bl k)
  | receive_none {q n k} : CanCrash (k none) → CanCrash (receive q n k)
  | receive_some {q n k} (d : Bytes) : d.length ≤ n → CanCrash (k (some d)) →
      CanCrash (receive q n k)
  | shutdown {q k} : CanCrash k → CanCrash (shutdown q k)

namespace Lockstep

variable {R : α → β → Prop} {S : γ → δ → Prop} {t₁ : Proc α} {t₂ : Proc β}

/-- Trees in lockstep cannot crash. -/
theorem not_canCrash (h : Lockstep R t₁ t₂) : ¬t₁.CanCrash ∧ ¬t₂.CanCrash := by
  induction h with
  | done => exact ⟨nofun, nofun⟩
  | send _ ih => exact ⟨fun | .send r h => (ih r).1 h, fun | .send r h => (ih r).2 h⟩
  | probe _ ih => exact ⟨fun | .probe r h => (ih r).1 h, fun | .probe r h => (ih r).2 h⟩
  | receive _ _ ih₁ ih₂ =>
    exact ⟨fun | .receive_none h => ih₁.1 h | .receive_some d hd h => (ih₂ d hd).1 h,
      fun | .receive_none h => ih₁.2 h | .receive_some d hd h => (ih₂ d hd).2 h⟩
  | shutdown _ ih => exact ⟨fun | .shutdown h => ih.1 h, fun | .shutdown h => ih.2 h⟩

theorem bind {f : α → Proc γ} {g : β → Proc δ} (h : Lockstep R t₁ t₂)
    (hf : ∀ a b, R a b → Lockstep S (f a) (g b)) : Lockstep S (t₁ >>= f) (t₂ >>= g) := by
  induction h with
  | done hab => exact hf _ _ hab
  | send _ ih => exact .send ih
  | probe _ ih => exact .probe ih
  | receive _ _ ih₁ ih₂ => exact .receive ih₁ ih₂
  | shutdown _ ih => exact .shutdown ih

theorem mono {R' : α → β → Prop} (h : Lockstep R t₁ t₂) (hR : ∀ a b, R a b → R' a b) :
    Lockstep R' t₁ t₂ := by
  induction h with
  | done hab => exact .done (hR _ _ hab)
  | send _ ih => exact .send ih
  | probe _ ih => exact .probe ih
  | receive _ _ ih₁ ih₂ => exact .receive ih₁ ih₂
  | shutdown _ ih => exact .shutdown ih

end Lockstep

end Proc

-- ---------------------------------------------------------------------------
-- Writes inside a range
-- ---------------------------------------------------------------------------

/-- `o₁` and `o₂` are the buffers `b₁` and `b₂` after the same writes, all inside `[lo, hi)`:
both non-null, agreeing wherever `b₁` and `b₂` agree, and each as it was outside the range. -/
def WriteIn (lo hi : Nat) (b₁ b₂ : Buf) (o₁ o₂ : Option Buf) : Prop :=
  ∃ b₁' b₂', o₁ = some b₁' ∧ o₂ = some b₂' ∧ (∀ a, b₁ a = b₂ a → b₁' a = b₂' a) ∧
    ∀ a, a < lo ∨ hi ≤ a → b₁' a = b₁ a ∧ b₂' a = b₂ a

namespace WriteIn

variable {lo hi : Nat} {b₁ b₂ b₁' b₂' : Buf} {o₁ o₂ : Option Buf}

theorem refl (lo hi : Nat) (b₁ b₂ : Buf) : WriteIn lo hi b₁ b₂ (some b₁) (some b₂) :=
  ⟨b₁, b₂, rfl, rfl, fun _ h => h, fun _ _ => ⟨rfl, rfl⟩⟩

/-- One `memcpy` of the same bytes into both buffers, inside the range. -/
theorem write {off : Nat} {d : Bytes} (hlo : lo ≤ off) (hhi : off + d.length ≤ hi) :
    WriteIn lo hi b₁ b₂ (some (b₁.write off d)) (some (b₂.write off d)) := by
  refine ⟨_, _, rfl, rfl, fun a h => ?_, fun a ha => ?_⟩
  · simp only [Buf.write_apply]; split <;> simp [h]
  · exact ⟨Buf.write_apply_of_not_mem (by omega), Buf.write_apply_of_not_mem (by omega)⟩

theorem trans (h : WriteIn lo hi b₁ b₂ (some b₁') (some b₂')) (h' : WriteIn lo hi b₁' b₂' o₁ o₂) :
    WriteIn lo hi b₁ b₂ o₁ o₂ := by
  obtain ⟨_, _, h₁, h₂, hag, hfr⟩ := h
  cases h₁; cases h₂
  obtain ⟨c₁, c₂, rfl, rfl, hag', hfr'⟩ := h'
  refine ⟨c₁, c₂, rfl, rfl, fun a ha => hag' a (hag a ha), fun a ha => ?_⟩
  rw [(hfr' a ha).1, (hfr' a ha).2]
  exact hfr a ha

theorem mono {lo' hi' : Nat} (h : WriteIn lo hi b₁ b₂ o₁ o₂) (hlo : lo' ≤ lo) (hhi : hi ≤ hi') :
    WriteIn lo' hi' b₁ b₂ o₁ o₂ := by
  obtain ⟨c₁, c₂, rfl, rfl, hag, hfr⟩ := h
  exact ⟨c₁, c₂, rfl, rfl, hag, fun a ha => hfr a (by omega)⟩

/-- Buffers that agreed on `[0, n)` still agree there. -/
theorem agree_of (h : WriteIn lo hi b₁ b₂ (some b₁') (some b₂')) {n : Nat}
    (hb : ∀ a < n, b₁ a = b₂ a) : ∀ a < n, b₁' a = b₂' a := by
  obtain ⟨_, _, h₁, h₂, hag, -⟩ := h
  cases h₁; cases h₂
  exact fun a ha => hag a (hb a ha)

end WriteIn

/-- The answers of `Handle::send`, `Handle::probe`, `Handle::receive` and `Handle::close`, within
the transport's contract. -/
theorem Handle.send_lockstep (h : Handle) (d : Bytes) :
    Proc.Lockstep (fun a b => a = b ∧ True) (h.send d) (h.send d) :=
  .send fun _ => .done ⟨rfl, trivial⟩

theorem Handle.probe_lockstep (h : Handle) (bl : Bool) :
    Proc.Lockstep (fun a b => a = b ∧ True) (h.probe bl) (h.probe bl) :=
  .probe fun _ => .done ⟨rfl, trivial⟩

theorem Handle.receive_lockstep (h : Handle) (n : Nat) :
    Proc.Lockstep (fun a b => a = b ∧ ∀ d, a = some d → d.length ≤ n) (h.receive n) (h.receive n) :=
  .receive (.done ⟨rfl, nofun⟩) fun _ hd => .done ⟨rfl, fun _ he => Option.some_inj.mp he ▸ hd⟩

theorem Handle.close_lockstep (h : Handle) (wr rd : Bool) :
    Proc.Lockstep (fun a b => a = b ∧ a = { h with closedWr := h.closedWr || wr, closedRd := h.closedRd || rd })
      (h.close wr rd) (h.close wr rd) := by
  unfold Handle.close
  split
  · exact .shutdown (.done ⟨rfl, rfl⟩)
  · exact .done ⟨rfl, rfl⟩

-- ---------------------------------------------------------------------------
-- Two runs of state-passing code
-- ---------------------------------------------------------------------------

namespace CollM

variable {α β γ δ : Type}

/-- From any state satisfying the invariant `I`, `m₁` and `m₂` run in lockstep and return in
the same state, which satisfies `I`, with results related by `R`. -/
def Lockstep (I : State → Prop) (m₁ : CollM α) (m₂ : CollM β) (R : α → β → Prop) : Prop :=
  ∀ s, I s → Proc.Lockstep (fun x y => x.2 = y.2 ∧ I x.2 ∧ R x.1 y.1) (m₁.run s) (m₂.run s)

/-- The number of handles is `L`: the invariant of the rooted collectives, whose handle list
never changes length. -/
def Len (L : Nat) (s : State) : Prop := s.participants.length = L

namespace Lockstep

variable {I : State → Prop} {R R' : α → β → Prop} {m₁ : CollM α} {m₂ : CollM β} {L : Nat}

theorem pure {a : α} {b : β} (h : R a b) : Lockstep I (Pure.pure a) (Pure.pure b) R :=
  fun _ hs => .done ⟨rfl, hs, h⟩

theorem bind {S : γ → δ → Prop} {f : α → CollM γ} {g : β → CollM δ} (h : Lockstep I m₁ m₂ R)
    (hf : ∀ a b, R a b → Lockstep I (f a) (g b) S) : Lockstep I (m₁ >>= f) (m₂ >>= g) S :=
  fun s hs => by
  simp only [StateT.run_bind]
  refine (h s hs).bind fun x y ⟨hxy, hi, hr⟩ => ?_
  rw [← hxy]
  exact hf x.1 y.1 hr x.2 hi

/-- Two runs that return the same value go on with the same code for it. -/
theorem bind_eq {S : γ → δ → Prop} {m₁ m₂ : CollM α} {f : α → CollM γ} {g : α → CollM δ}
    (h : Lockstep I m₁ m₂ Eq) (hf : ∀ a, Lockstep I (f a) (g a) S) :
    Lockstep I (m₁ >>= f) (m₂ >>= g) S :=
  bind h fun a _ hab => hab ▸ hf a

/-- Code in lockstep never crashes, from any state satisfying the invariant. -/
theorem not_canCrash (h : Lockstep I m₁ m₂ R) {s : State} (hs : I s) : ¬(m₁.run s).CanCrash :=
  (h s hs).not_canCrash.1

theorem mono (h : Lockstep I m₁ m₂ R) (hR : ∀ a b, R a b → R' a b) : Lockstep I m₁ m₂ R' :=
  fun s hs => (h s hs).mono fun _ _ ⟨hxy, hi, hr⟩ => ⟨hxy, hi, hR _ _ hr⟩

theorem ite {c : Prop} [Decidable c] {m₁' : CollM α} {m₂' : CollM β} (h₁ : c → Lockstep I m₁ m₂ R)
    (h₂ : ¬c → Lockstep I m₁' m₂' R) :
    Lockstep I (if c then m₁ else m₁') (if c then m₂ else m₂') R := by
  split
  · exact h₁ ‹_›
  · exact h₂ ‹_›

theorem get : Lockstep I MonadState.get MonadState.get fun a b => a = b ∧ I a :=
  fun _ hs => .done ⟨rfl, hs, rfl, hs⟩

theorem setErrno (e : Nat) (hI : ∀ s, I s → I { s with errno := e }) :
    Lockstep I (setErrno e) (setErrno e) Eq :=
  fun s hs => .done ⟨rfl, hI s hs, rfl⟩

theorem setErrno_len (e : Nat) : Lockstep (Len L) (CollM.setErrno e) (CollM.setErrno e) Eq :=
  setErrno e fun _ h => h

theorem setParticipant (i : Nat) (h : Handle) :
    Lockstep (Len L) (setParticipant i h) (setParticipant i h) Eq :=
  fun s hs => .done ⟨rfl, by simpa [Len] using hs, rfl⟩

/-- `participants.at(i)` with `i` in range: both runs get the same handle. -/
theorem participantsAt {i : Nat} (hi : i < L) :
    Lockstep (Len L) (participantsAt i) (participantsAt i) Eq := fun s hs => by
  rw [run_participantsAt (List.getElem?_eq_getElem (hs ▸ hi))]
  exact .done ⟨rfl, hs, rfl⟩

/-- A handle operation, whose answers within the contract satisfy `Post`. -/
theorem lift {t : Proc α} {Post : α → Prop} (ht : Proc.Lockstep (fun a b => a = b ∧ Post a) t t) :
    Lockstep I (StateT.lift t) (StateT.lift t) fun a b => a = b ∧ Post a := fun s hs => by
  simp only [StateT.run_lift]
  exact ht.bind fun _ _ ⟨hab, hp⟩ => .done ⟨rfl, hs, hab, hp⟩

/-- A send and a probe on the same handle: the same answer in both runs. -/
theorem handleSend (h : Handle) (d : Bytes) :
    Lockstep I (StateT.lift (h.send d)) (StateT.lift (h.send d)) Eq :=
  (lift (Handle.send_lockstep h d)).mono fun _ _ h => h.1

theorem handleProbe (h : Handle) (bl : Bool) :
    Lockstep I (StateT.lift (h.probe bl)) (StateT.lift (h.probe bl)) Eq :=
  (lift (Handle.probe_lockstep h bl)).mono fun _ _ h => h.1

/-- A read of `[off, off + len)` from buffers that agree there: the same `len` bytes. -/
theorem readPtr {b₁ b₂ : Buf} {off len : Nat} (hb : ∀ a, off ≤ a → a < off + len → b₁ a = b₂ a) :
    Lockstep I (readPtr (some b₁) off len) (readPtr (some b₂) off len)
      fun x y => x = y ∧ x.length = len :=
  fun _ hs => .done ⟨rfl, hs, Buf.slice_congr hb, Buf.length_slice _ _ _⟩

theorem writePtr (b₁ b₂ : Buf) (off : Nat) (d : Bytes) :
    Lockstep I (writePtr (some b₁) off d) (writePtr (some b₂) off d)
      fun o₁ o₂ => o₁ = some (b₁.write off d) ∧ o₂ = some (b₂.write off d) :=
  fun _ hs => .done ⟨rfl, hs, rfl, rfl⟩

theorem sizeMod {a b : Nat} (hb : 0 < b) :
    Lockstep I (sizeMod a b) (sizeMod a b) fun x y => x = y ∧ x = a % b := fun s hs => by
  rw [run_sizeMod _ hb]
  exact .done ⟨rfl, hs, rfl, rfl⟩

end Lockstep

end CollM

-- ---------------------------------------------------------------------------
-- The framing
-- ---------------------------------------------------------------------------

namespace CollM

variable {L i : Nat}

theorem closeAt_lockstep (hi : i < L) (wr rd : Bool) :
    Lockstep (Len L) (closeAt i wr rd) (closeAt i wr rd) Eq :=
  .bind_eq (.participantsAt hi) fun h =>
    .bind_eq ((Lockstep.lift (Handle.close_lockstep h wr rd)).mono fun _ _ h => h.1) fun _ =>
      .setParticipant _ _

theorem probeHandle_lockstep (hi : i < L) (size : Nat) (bl : Bool) :
    Lockstep (Len L) (probeHandle i size bl) (probeHandle i size bl) Eq := by
  unfold probeHandle
  simp only [pure_bind]
  refine .bind_eq (.participantsAt hi) fun h => ?_
  refine .ite (fun _ => .pure rfl) fun _ => .ite (fun _ => .pure rfl) fun _ => ?_
  refine .bind_eq (.handleProbe h bl) fun r => ?_
  cases r with
  | eof => exact .bind_eq (closeAt_lockstep hi _ _) fun _ => .pure rfl
  | fail e =>
    refine .bind_eq (.setErrno_len e) fun _ => ?_
    exact .ite (fun _ => .bind_eq (closeAt_lockstep hi _ _) fun _ => .pure rfl) fun _ =>
      .ite (fun _ => .bind_eq (.setErrno_len _) fun _ => .pure rfl) fun _ => .pure rfl
  | header sz =>
    refine .bind_eq (.setParticipant _ _) fun _ => ?_
    exact .ite (fun _ => .bind_eq (closeAt_lockstep hi _ _) fun _ => .pure rfl) fun _ => .pure rfl

/-- `receiveFromHandle` into `buff + off`, with room for `cap` bytes, writes the same bytes into
both buffers, at most `cap` of them, from `off` on. -/
theorem receiveFromHandle_lockstep (hi : i < L) (b₁ b₂ : Buf) (off cap : Nat) :
    Lockstep (Len L) (receiveFromHandle i (some b₁) off cap) (receiveFromHandle i (some b₂) off cap)
      fun x y => x.1 = y.1 ∧ WriteIn off (off + cap) b₁ b₂ x.2 y.2 := by
  unfold receiveFromHandle
  simp only [pure_bind]
  refine .bind_eq (.participantsAt hi) fun h => ?_
  refine .ite (fun _ => .bind_eq (probeHandle_lockstep hi _ _) fun x => ?_)
    fun _ => .ite (fun _ => .pure ⟨rfl, .refl _ _ _ _⟩) fun _ => ?_
  refine .ite (fun _ => .pure ⟨rfl, .refl _ _ _ _⟩) fun _ => ?_
  all_goals
    refine .bind_eq (.participantsAt hi) fun h => ?_
    refine .ite (fun _ => .bind_eq (.setErrno_len _) fun _ => .pure ⟨rfl, .refl _ _ _ _⟩)
      fun _ => .bind_eq (.setParticipant _ _) fun _ => ?_
    refine .bind (Lockstep.lift (Handle.receive_lockstep h _)) fun x y ⟨hxy, hx⟩ => ?_
    subst hxy
    cases x with
    | none => exact .pure ⟨rfl, .refl _ _ _ _⟩
    | some d =>
      have := hx d rfl
      exact .bind (.writePtr _ _ _ _) fun _ _ ⟨h₁, h₂⟩ =>
        .pure ⟨rfl, h₁ ▸ h₂ ▸ .write le_rfl (by omega)⟩

/-- `sendEach` reads `[0, size)` of its buffer, and nothing else. -/
theorem sendEach_lockstep {b₁ b₂ : Buf} {size : Nat} (hb : ∀ a < size, b₁ a = b₂ a)
    (hs : List Handle) :
    Lockstep (Len L) (sendEach (some b₁) size hs) (sendEach (some b₂) size hs) Eq := by
  induction hs with
  | nil => exact .pure rfl
  | cons h hs ih =>
    refine .bind (.readPtr fun a _ ha => hb a (by omega)) fun d _ ⟨h, _⟩ => ?_
    subst h
    refine .bind_eq (.handleSend h d) fun r => ?_
    exact .ite (fun _ => .bind_eq (.setErrno_len _) fun _ => .pure rfl) fun _ => ih

/-- The receive of a non-root from the root, handle `0`, into the first `recvsize` bytes. -/
theorem receiveShare_lockstep (hL : 0 < L) (b₁ b₂ : Buf) (recvsize : Nat) :
    Lockstep (Len L) (receiveShare (some b₁) recvsize) (receiveShare (some b₂) recvsize)
      fun x y => x.1 = y.1 ∧ WriteIn 0 recvsize b₁ b₂ x.2 y.2 := by
  unfold receiveShare
  refine .bind (receiveFromHandle_lockstep hL b₁ b₂ 0 recvsize) fun x y ⟨hxy, hw⟩ => ?_
  simp only [← hxy, pure_bind, Nat.zero_add] at hw ⊢
  exact .ite (fun _ => .bind_eq (closeAt_lockstep hL _ _) fun _ => .pure ⟨hxy, hw⟩) fun _ =>
    .pure ⟨hxy, hw⟩

theorem receiveAll_lockstep (hL : 0 < L) (b₁ b₂ : Buf) (recvsize : Nat) :
    Lockstep (Len L) (receiveAll (some b₁) recvsize) (receiveAll (some b₂) recvsize)
      (WriteIn 0 recvsize b₁ b₂) := by
  unfold receiveAll
  refine .bind (receiveFromHandle_lockstep hL b₁ b₂ 0 recvsize) fun ⟨r, o₁⟩ ⟨_, o₂⟩ ⟨hxy, hw⟩ => ?_
  simp only at hxy
  simp only [← hxy, pure_bind, Nat.zero_add] at hw ⊢
  exact .ite (fun _ => .bind_eq (closeAt_lockstep hL _ _) fun _ => .pure hw) fun _ => .pure hw

theorem receiveRest_lockstep (hL : 0 < L) (b₁ b₂ : Buf) (recvsize ret : Nat) :
    Lockstep (Len L) (receiveRest (some b₁) recvsize ret) (receiveRest (some b₂) recvsize ret)
      fun x y => x.1 = y.1 ∧ WriteIn 0 recvsize b₁ b₂ x.2 y.2 :=
  .bind (receiveAll_lockstep hL b₁ b₂ recvsize) fun _ _ hw => .pure ⟨rfl, hw⟩

end CollM

