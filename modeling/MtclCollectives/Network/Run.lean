-- SUMMARY: Runs of one participant on its own, composed along the code's binds, and lifted to runs of the whole group.
import MtclCollectives.Network.Step
import MtclCollectives.Transport.Handle

/-!
# Runs of one participant

`Proc.Run p` is a run of participant `p` alone; runs compose along `>>=`, `CollM.Runs` is the
run of collective code from a state, and `CollM.Blocking` code waits only in blocking
operations.
-/

/-- The connections after `p` sent the frames `l`, in order: `(q, m)` is a frame `m` to `q`. -/
def Chans.sendAll (c : Chans) (p : Nat) (l : List (Nat × Bytes)) : Chans :=
  l.foldl (fun c x => (Act.push (p, x.1) (.frame x.2)).apply c) c

@[simp] theorem Chans.sendAll_nil (c : Chans) (p : Nat) : Chans.sendAll c p [] = c := rfl

@[simp] theorem Chans.sendAll_cons (c : Chans) (p q : Nat) (m : Bytes) (l : List (Nat × Bytes)) :
    Chans.sendAll c p ((q, m) :: l) = Chans.sendAll ((Act.push (p, q) (.frame m)).apply c) p l := rfl

theorem Chans.sendAll_append (c : Chans) (p : Nat) (l l' : List (Nat × Bytes)) :
    Chans.sendAll c p (l ++ l') = Chans.sendAll (Chans.sendAll c p l) p l' := List.foldl_append _ _ _ _

namespace Proc

variable {α β : Type} {p : Nat}

/-- `p`'s code and the connections go from `x` to `y` by steps of `p` alone. -/
def Run (p : Nat) : Proc α × Chans → Proc α × Chans → Prop :=
  Relation.ReflTransGen fun x y => x.1.next p x.2 = some y

theorem op_bind {hd : Nat → Option Msg} {t : Proc α} {u : Proc α} {a : Act} (f : α → Proc β)
    (h : t.op p hd = some (u, a)) : (t >>= f).op p hd = some (u >>= f, a) := by
  cases t with
  | done => cases h
  | crash => cases h
  | send => cases h; rfl
  | shutdown => cases h; rfl
  | probe q b k =>
    simp only [op] at h
    simp only [probe_bind, op]
    split at h
    · split at h <;> cases h; simp_all
    · cases h; simp_all
  | receive q n k =>
    simp only [op] at h
    simp only [receive_bind, op]
    split at h <;> cases h <;> simp_all

theorem next_bind {c c' : Chans} {t u : Proc α} (f : α → Proc β) (h : t.next p c = some (u, c')) :
    (t >>= f).next p c = some (u >>= f, c') := by
  simp only [next, Option.map_eq_some', Prod.mk.injEq] at h ⊢
  obtain ⟨⟨_, a⟩, ha, rfl, rfl⟩ := h
  exact ⟨_, op_bind f ha, rfl, rfl⟩

namespace Run

theorem refl {x : Proc α × Chans} : Run p x x := Relation.ReflTransGen.refl

theorem single {t u : Proc α} {c c' : Chans} (h : t.next p c = some (u, c')) :
    Run p (t, c) (u, c') :=
  Relation.ReflTransGen.single h

theorem trans {x y z : Proc α × Chans} (h₁ : Run p x y) (h₂ : Run p y z) : Run p x z :=
  Relation.ReflTransGen.trans h₁ h₂

theorem head {t u : Proc α} {c c' : Chans} {z : Proc α × Chans}
    (h₁ : t.next p c = some (u, c')) (h₂ : Run p (u, c') z) : Run p (t, c) z :=
  Relation.ReflTransGen.head h₁ h₂

/-- A run of `t` is a run of `t >>= f`, up to where `t` stands. -/
theorem bind {t u : Proc α} {c c' : Chans} (f : α → Proc β) (h : Run p (t, c) (u, c')) :
    Run p (t >>= f, c) (u >>= f, c') := by
  generalize hx : (t, c) = x at h
  generalize hy : (u, c') = y at h
  induction h generalizing u c' with
  | refl => subst hx; cases hy; exact refl
  | tail _ hs ih =>
    subst hy
    exact trans (ih rfl) (single (next_bind f hs))

/-- A returned tree takes no step. -/
theorem eq_of_done {a : α} {c : Chans} {y : Proc α × Chans} (h : Run p (.done a, c) y) :
    y = (.done a, c) := by
  rcases Relation.ReflTransGen.cases_head h with h | ⟨_, h, _⟩
  · exact h.symm
  · simp at h

/-- A participant's run is determined by the connections: it returns at most one way. -/
theorem det {x : Proc α × Chans} {a b : α} {c c' : Chans} (h₁ : Run p x (.done a, c))
    (h₂ : Run p x (.done b, c')) : a = b ∧ c = c' := by
  have hu : Relator.RightUnique fun (x y : Proc α × Chans) => x.1.next p x.2 = some y :=
    fun _ _ _ h h' => Option.some_inj.mp (h.symm.trans h')
  rcases h₁.total_of_right_unique hu h₂ with h | h <;> simpa [eq_comm] using eq_of_done h

/-- Code stuck on a step never returns. -/
theorem not_done_of_stuck {t : Proc α} {c c' : Chans} {a : α} (ht : t.next p c = none)
    (hd : ∀ b, t ≠ .done b) : ¬ Run p (t, c) (.done a, c') := fun h => by
  rcases Relation.ReflTransGen.cases_head h with h | ⟨_, h, _⟩
  · exact hd a (congrArg Prod.fst h)
  · simp [ht] at h

end Run

/-- Code that only sends runs to its return without waiting, whatever stands on the
connections. -/
theorem Emits.run {t : Proc α} {l : List (Nat × Bytes)} {a : α} (h : Emits t l a) (c : Chans) :
    Run p (t, c) (.done a, Chans.sendAll c p l) := by
  induction h generalizing c with
  | done => exact Run.refl
  | send hk ih => exact Run.head (next_send _ _ _ _ _) (ih _ (Int.ofNat_nonneg _) _)

end Proc

namespace Net

variable {α : Type}

/-- A run of participant `p` alone is a run of the group. -/
theorem reach_of_run {s : Net α} {p : Nat} {u : Proc α} {c : Chans}
    (h : Proc.Run p (s.procs p, s.chans) (u, c)) :
    Reach s ⟨Function.update s.procs p u, c⟩ := by
  generalize hx : (s.procs p, s.chans) = x at h
  generalize hy : (u, c) = y at h
  induction h generalizing u c with
  | refl =>
    cases hx; cases hy
    rw [Function.update_eq_self]
  | tail _ hs ih =>
    subst hy
    refine Relation.ReflTransGen.tail (ih rfl) ?_
    have := Step.mk (s := ⟨Function.update s.procs p _, _⟩) (p := p) (by simpa using hs)
    simpa using this

end Net

namespace CollM

variable {α β : Type} {p : Nat}

/-- Participant `p` runs `m` from state `s` to its return `a` in state `s'`, the connections
going from `c` to `c'`. -/
def Runs (p : Nat) (m : CollM α) (s : State) (c : Chans) (a : α) (s' : State) (c' : Chans) :
    Prop :=
  Proc.Run p (m.run s, c) (.done (a, s'), c')

namespace Runs

variable {m : CollM α} {s s₁ s₂ : State} {c c₁ c₂ : Chans} {a : α} {b : β}

theorem pure' (a : α) (s : State) (c : Chans) : Runs p (pure a) s c a s c := Proc.Run.refl

theorem of_eq {m : CollM α} (h : m.run s = .done (a, s₁)) : Runs p m s c a s₁ c := by
  rw [Runs, h]; exact Proc.Run.refl

/-- Runs compose along `>>=`. -/
theorem bind {g : α → CollM β} (h₁ : Runs p m s c a s₁ c₁) (h₂ : Runs p (g a) s₁ c₁ b s₂ c₂) :
    Runs p (m >>= g) s c b s₂ c₂ := by
  have := Proc.Run.bind (fun x => (g x.1).run x.2) h₁
  exact (by simpa using this : Proc.Run p ((m >>= g).run s, c) ((g a).run s₁, c₁)).trans h₂

/-- The first part of a run of `m >>= g`: up to where `m` returns. -/
theorem bind_left {g : α → CollM β} (h₁ : Runs p m s c a s₁ c₁) :
    Proc.Run p ((m >>= g).run s, c) ((g a).run s₁, c₁) := by
  simpa using Proc.Run.bind (fun x => (g x.1).run x.2) h₁

/-- A run of `m` starts a run of the tree of `m` followed by anything. -/
theorem run_bind {β : Type} {f : α × State → Proc β} {z : Proc β × Chans}
    (h : Runs p m s c a s₁ c₁) (h₂ : Proc.Run p (f (a, s₁), c₁) z) :
    Proc.Run p (m.run s >>= f, c) z :=
  (Proc.Run.bind f h).trans h₂

/-- A run of `m` is a run of `m` followed by anything. -/
theorem cont {β : Type} (h : Runs p m s c a s₁ c₁) (K : α × State → Proc β) :
    Proc.Run p (m.run s >>= K, c) (K (a, s₁), c₁) := by
  simpa using Proc.Run.bind K h

/-- Code that only sends runs to its return without waiting. -/
theorem of_emits {l : List (Nat × Bytes)} (h : Proc.Emits (m.run s) l (a, s₁)) (c : Chans) :
    Runs p m s c a s₁ (Chans.sendAll c p l) :=
  h.run c

/-- Code whose first step is a blocking probe of an empty connection waits there. -/
theorem not_of_wait {q : Nat} {k : ProbeReply → Proc (α × State)} (hm : m.run s = .probe q true k)
    (hc : c (q, p) = []) (g : α → CollM β) : ¬ Runs p (m >>= g) s c b s₂ c₂ := by
  unfold Runs
  rw [StateT.run_bind, hm, Proc.probe_bind]
  exact Proc.Run.not_done_of_stuck (Proc.next_probe_wait _ hc) fun _ h => by cases h

/-- Code returns at most one way from given connections. -/
theorem det {a' : α} (h₁ : Runs p m s c a s₁ c₁) (h₂ : Runs p m s c a' s₂ c₂) :
    a = a' ∧ s₁ = s₂ ∧ c₁ = c₂ := by
  obtain ⟨h, rfl⟩ := Proc.Run.det h₁ h₂
  cases h
  exact ⟨rfl, rfl, rfl⟩

end Runs

-- ---------------------------------------------------------------------------
-- Blocking code
-- ---------------------------------------------------------------------------

/-- From every state, `m` performs only blocking probes. -/
def Blocking (m : CollM α) : Prop := ∀ s, (m.run s).Blocking

namespace Blocking

theorem pure (a : α) : CollM.Blocking (Pure.pure a : CollM α) := fun _ => .done _

theorem crash : CollM.Blocking (CollM.crash : CollM α) := fun _ => .crash

theorem bind {m : CollM α} {g : α → CollM β} (hm : m.Blocking) (hg : ∀ a, (g a).Blocking) :
    CollM.Blocking (m >>= g) := fun s => by
  rw [StateT.run_bind]
  exact (hm s).bind fun x => hg x.1 x.2

theorem lift {t : Proc α} (ht : t.Blocking) : CollM.Blocking (StateT.lift t : CollM α) := fun _ =>
  ht.bind fun _ => .done _

theorem get : CollM.Blocking (MonadState.get : CollM State) := fun _ => .done _

theorem modify (f : State → State) : CollM.Blocking (modify f) := fun _ => .done _

theorem participantsAt (i : Nat) : CollM.Blocking (participantsAt i) := fun s => by
  cases hi : s.participants[i]? with
  | none => rw [run_participantsAt_none hi]; exact .crash
  | some h => rw [run_participantsAt hi]; exact .done _

theorem setParticipant (i : Nat) (h : Handle) : CollM.Blocking (setParticipant i h) :=
  fun _ => .done _

theorem setErrno (e : Nat) : CollM.Blocking (setErrno e) := fun _ => .done _

/-- `errno = e; return a;` -/
theorem fail (e : Nat) (a : α) : CollM.Blocking (CollM.setErrno e >>= fun _ => Pure.pure a) :=
  bind (setErrno e) fun _ => pure a

theorem readPtr (ptr : Option Buf) (off len : Nat) : CollM.Blocking (readPtr ptr off len) :=
  fun s => by
  cases ptr with
  | some b => exact .done _
  | none => by_cases h : len = 0 <;> simp [CollM.readPtr, h, Proc.Blocking.done, Proc.Blocking.crash]

theorem writePtr (ptr : Option Buf) (off : Nat) (d : Bytes) : CollM.Blocking (writePtr ptr off d) :=
  fun s => by
  cases ptr with
  | some b => exact .done _
  | none => by_cases h : d = [] <;> simp [CollM.writePtr, h, Proc.Blocking.done, Proc.Blocking.crash]

theorem sizeMod (a b : Nat) : CollM.Blocking (sizeMod a b) := fun _ => by
  unfold CollM.sizeMod; split
  · exact .crash
  · exact .done _

theorem close (h : Handle) (wr rd : Bool) :
    CollM.Blocking (StateT.lift (h.close wr rd) : CollM Handle) :=
  lift (by
    unfold Handle.close; split
    · exact .shutdown (.done _)
    · exact .done _)

theorem closeAt (i : Nat) (wr rd : Bool) : CollM.Blocking (closeAt i wr rd) :=
  bind (participantsAt i) fun h => bind (close h wr rd) fun _ => setParticipant _ _

theorem send (h : Handle) (d : Bytes) : CollM.Blocking (StateT.lift (h.send d) : CollM Int) :=
  lift (.send fun _ => .done _)

theorem receive (h : Handle) (n : Nat) :
    CollM.Blocking (StateT.lift (h.receive n) : CollM (Option Bytes)) :=
  lift (.receive fun _ => .done _)

theorem probe (h : Handle) : CollM.Blocking (StateT.lift (h.probe true) : CollM ProbeReply) :=
  lift (.probe fun _ => .done _)

theorem ite {c : Prop} [Decidable c] {m m' : CollM α} (hm : m.Blocking) (hm' : m'.Blocking) :
    CollM.Blocking (if c then m else m') := by
  split <;> assumption

end Blocking

end CollM
