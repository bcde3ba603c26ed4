-- SUMMARY: One participant's runs while its peers' messages arrive at any pace, and a program logic over all such runs: every run that returns ends where a postcondition holds.
import MtclCollectives.Network.Run

/-!
# Runs with arrivals

`Proc.Fed` runs one participant while its peers' messages arrive between any two of its steps;
`Safe` says every such run that returns ends in a postcondition, `Returns` that some run with
nothing arriving returns, each with one law per operation.
-/

/-- What participant `p` reads from: the connections, and for each peer `q` the messages `q`
has still to send to `p`, oldest first. -/
abbrev Feed := Chans × (Nat → List Msg)

/-- The next message peer `q` has for `p` arrives on the connection from `q` to `p`. -/
inductive Arrive (p : Nat) : Feed → Feed → Prop
  | mk {c : Chans} {later : Nat → List Msg} {q : Nat} {m : Msg} {l : List Msg} :
      later q = m :: l →
      Arrive p (c, later) ((Act.push (q, p) m).apply c, Function.update later q l)

/-- Messages arrive, and nothing else happens. -/
abbrev Arrivals (p : Nat) : Feed → Feed → Prop := Relation.ReflTransGen (Arrive p)

/-- An arrival leaves every connection as it was or appends to it: what stands first on a
connection stays first. -/
theorem Arrive.head {p : Nat} {x y : Feed} (h : Arrive p x y) {ch : Nat × Nat} {m : Msg}
    {l : List Msg} (hc : x.1 ch = m :: l) : ∃ l', y.1 ch = m :: l' := by
  obtain ⟨-⟩ := h
  simp only [Act.apply, Act.edit] at hc ⊢
  split <;> simp [hc]

/-- An arrival only appends to a connection. -/
theorem Arrive.append {p : Nat} {x y : Feed} (h : Arrive p x y) (ch : Nat × Nat) :
    ∃ l, y.1 ch = x.1 ch ++ l := by
  obtain ⟨-⟩ := h
  simp only [Act.apply, Act.edit]
  split
  · exact ⟨_, rfl⟩
  · exact ⟨[], (List.append_nil _).symm⟩

theorem Arrivals.append {p : Nat} {x y : Feed} (h : Arrivals p x y) (ch : Nat × Nat) :
    ∃ l, y.1 ch = x.1 ch ++ l := by
  induction h with
  | refl => exact ⟨[], (List.append_nil _).symm⟩
  | tail _ h ih =>
    obtain ⟨l, hl⟩ := ih
    obtain ⟨l', hl'⟩ := h.append ch
    exact ⟨l ++ l', by rw [hl', hl, List.append_assoc]⟩

/-- An arrival moves a message onto its connection: what stands on a connection, followed by what
has still to arrive on it, does not change. -/
theorem Arrive.pending {p : Nat} {x y : Feed} (h : Arrive p x y) (q : Nat) :
    y.1 (q, p) ++ y.2 q = x.1 (q, p) ++ x.2 q := by
  obtain ⟨hl⟩ := h
  rename_i q' m l
  by_cases hq : q = q'
  · subst hq; simp [Act.apply, Act.edit, hl]
  · have hch : (q, p) ≠ (q', p) := fun h => hq (Prod.mk.inj h).1
    simp [Act.apply, Act.edit, hch, Function.update_noteq hq]

theorem Arrivals.pending {p : Nat} {x y : Feed} (h : Arrivals p x y) (q : Nat) :
    y.1 (q, p) ++ y.2 q = x.1 (q, p) ++ x.2 q := by
  induction h with
  | refl => rfl
  | tail _ h ih => rw [h.pending, ih]

namespace Proc

variable {α β : Type} {p : Nat}

/-- One step of participant `p` while its peers send: `p` steps on the connections, or a
message arrives. -/
inductive FedStep (p : Nat) : Proc α × Feed → Proc α × Feed → Prop
  | step {t u : Proc α} {c c' : Chans} {later : Nat → List Msg} :
      t.next p c = some (u, c') → FedStep p (t, c, later) (u, c', later)
  | arrive {t : Proc α} {x y : Feed} : Arrive p x y → FedStep p (t, x) (t, y)

/-- A run of `p`'s code while its peers' messages arrive at any pace. -/
abbrev Fed (p : Nat) : Proc α × Feed → Proc α × Feed → Prop := Relation.ReflTransGen (FedStep p)

namespace Fed

/-- A run with nothing arriving is a run with arrivals. -/
theorem of_run {t u : Proc α} {c c' : Chans} (later : Nat → List Msg) (h : Run p (t, c) (u, c')) :
    Fed p (t, c, later) (u, c', later) := by
  generalize hx : (t, c) = x at h
  generalize hy : (u, c') = y at h
  induction h generalizing u c' with
  | refl => cases hx; cases hy; exact .refl
  | tail _ hs ih => subst hx hy; exact .tail (ih rfl) (.step hs)

/-- Once the code has stopped, only messages arrive. -/
theorem of_stopped {t : Proc α} {x : Feed} {z : Proc α × Feed} (ht : ∀ c, t.next p c = none)
    (h : Fed p (t, x) z) : ∃ y, Arrivals p x y ∧ z = (t, y) := by
  induction h with
  | refl => exact ⟨x, .refl, rfl⟩
  | tail _ hs ih =>
    obtain ⟨y, hy, rfl⟩ := ih
    cases hs with
    | step hn => simp [ht] at hn
    | arrive ha => exact ⟨_, hy.tail ha, rfl⟩

theorem of_done {a : α} {x y : Feed} {b : α} (h : Fed p (.done a, x) (.done b, y)) :
    a = b ∧ Arrivals p x y := by
  obtain ⟨y', hy, he⟩ := of_stopped (t := .done a) (fun _ => rfl) h
  cases he
  exact ⟨rfl, hy⟩

theorem not_crash {x y : Feed} {b : α} : ¬ Fed p (.crash, x) (.done b, y) := fun h => by
  obtain ⟨_, _, he⟩ := of_stopped (t := .crash) (fun _ => rfl) h
  cases he

end Fed

/-- Code that has not returned and cannot step still cannot step once something is bound
after it. -/
theorem op_bind_none {hd : Nat → Option Msg} {t : Proc α} (f : α → Proc β) (ht : ∀ a, t ≠ .done a)
    (h : t.op p hd = none) : (t >>= f).op p hd = none := by
  cases t with
  | done a => exact absurd rfl (ht a)
  | crash => rfl
  | send | shutdown => cases h
  | probe q b k => simp only [op, probe_bind] at h ⊢; split at h <;> simp_all
  | receive q n k => simp only [op, receive_bind] at h ⊢; split at h <;> simp_all

/-- A step of `t >>= f` where `t` has not returned is a step of `t`. -/
theorem next_bind_inv {t : Proc α} {f : α → Proc β} {c c' : Chans} {v : Proc β}
    (ht : ∀ a, t ≠ .done a) (h : (t >>= f).next p c = some (v, c')) :
    ∃ u, t.next p c = some (u, c') ∧ v = u >>= f := by
  cases hn : t.next p c with
  | none =>
    simp only [next, Option.map_eq_none'] at hn
    simp [next, op_bind_none f ht hn] at h
  | some r =>
    rw [next_bind f hn] at h
    cases h
    exact ⟨r.1, rfl, rfl⟩

/-- A run of `t >>= f` that returns is a run of `t` that returns, then a run of what `f` makes
of its value. -/
theorem Fed.bind_inv {t : Proc α} {f : α → Proc β} {x z : Feed} {b : β}
    (h : Fed p (t >>= f, x) (.done b, z)) :
    ∃ a y, Fed p (t, x) (.done a, y) ∧ Fed p (f a, y) (.done b, z) := by
  generalize hw : (t >>= f, x) = w at h
  induction h using Relation.ReflTransGen.head_induction_on generalizing t x with
  | refl =>
    cases t with
    | done a => exact ⟨a, x, .refl, hw ▸ .refl⟩
    | _ => cases hw
  | head hs hr ih =>
    subst hw
    by_cases ht : ∃ a, t = .done a
    · obtain ⟨a, rfl⟩ := ht
      exact ⟨a, x, .refl, .head hs hr⟩
    push_neg at ht
    cases hs with
    | step hn =>
      obtain ⟨u, hu, rfl⟩ := next_bind_inv ht hn
      obtain ⟨a, y, h₁, h₂⟩ := ih rfl
      exact ⟨a, y, .head (.step hu) h₁, h₂⟩
    | arrive ha =>
      obtain ⟨a, y, h₁, h₂⟩ := ih rfl
      exact ⟨a, y, .head (.arrive ha) h₁, h₂⟩

-- ---------------------------------------------------------------------------
-- Safety over every run
-- ---------------------------------------------------------------------------

/-- Every run of `t` from `x` that returns, whatever arrives when, ends where `Q` holds. -/
def Safe (p : Nat) (t : Proc α) (x : Feed) (Q : α → Feed → Prop) : Prop :=
  ∀ a y, Fed p (t, x) (.done a, y) → Q a y

namespace Safe

variable {t : Proc α} {x : Feed} {Q Q' : α → Feed → Prop}

theorem mono (h : Safe p t x Q) (hQ : ∀ a y, Q a y → Q' a y) : Safe p t x Q' :=
  fun a y hr => hQ a y (h a y hr)

theorem done {a : α} (h : ∀ y, Arrivals p x y → Q a y) : Safe p (.done a) x Q :=
  fun _ _ hr => by obtain ⟨rfl, hy⟩ := Fed.of_done hr; exact h _ hy

theorem crash : Safe p (.crash : Proc α) x Q := fun _ _ hr => absurd hr Fed.not_crash

theorem bind {f : α → Proc β} {Q : β → Feed → Prop} (h : Safe p t x fun a y => Safe p (f a) y Q) :
    Safe p (t >>= f) x Q := fun _ _ hr => by
  obtain ⟨a, y, h₁, h₂⟩ := Fed.bind_inv hr
  exact h a y h₁ _ _ h₂

/-- Code that has not returned is safe when it is safe after its first step, taken from
wherever the arrivals have led. -/
theorem step (ht : ∀ a, t ≠ .done a)
    (h : ∀ y, Arrivals p x y → ∀ u c', t.next p y.1 = some (u, c') → Safe p u (c', y.2) Q) :
    Safe p t x Q := fun a z hr => by
  generalize hw : (t, x) = w at hr
  induction hr using Relation.ReflTransGen.head_induction_on generalizing x with
  | refl => cases hw; exact absurd rfl (ht a)
  | head hs hr ih =>
    subst hw
    cases hs with
    | step hn => exact h _ .refl _ _ hn _ _ hr
    | arrive ha => exact ih (fun y hy => h y (.head ha hy)) rfl

/-- The law of a probe: it waits, would block, or reports what stands first. -/
theorem probe {q : Nat} {b : Bool} {k : ProbeReply → Proc α}
    (h : ∀ y, Arrivals p x y →
      (y.1 (q, p) = [] → b = false → Safe p (k (.fail EWOULDBLOCK)) y Q) ∧
      ∀ m l, y.1 (q, p) = m :: l → Safe p (k m.reply) y Q) :
    Safe p (.probe q b k) x Q := by
  refine step (fun _ => nofun) fun y hy u c' hn => ?_
  cases hc : y.1 (q, p) with
  | nil =>
    cases b with
    | false =>
      rw [next_probe_empty _ hc] at hn; cases hn
      exact (h y hy).1 hc rfl
    | true => rw [next_probe_wait _ hc] at hn; cases hn
  | cons m l =>
    rw [next_probe _ _ hc] at hn; cases hn
    exact (h y hy).2 m l hc

/-- The law of a receive: it waits, takes the frame that stands first, or fails on anything
else. -/
theorem receive {q n : Nat} {k : Option Bytes → Proc α}
    (h : ∀ y, Arrivals p x y →
      (∀ f l, y.1 (q, p) = .frame f :: l →
        Safe p (k (some (f.take n))) ((Act.pop (q, p)).apply y.1, y.2) Q) ∧
      ∀ m l, y.1 (q, p) = m :: l → (∀ f, m ≠ .frame f) → Safe p (k none) y Q) :
    Safe p (.receive q n k) x Q := by
  refine step (fun _ => nofun) fun y hy u c' hn => ?_
  cases hc : y.1 (q, p) with
  | nil => simp [next, op, heads, hc] at hn
  | cons m l =>
    cases m with
    | frame f =>
      rw [next_receive _ _ hc] at hn; cases hn
      exact (h y hy).1 f l hc
    | eof =>
      simp only [next, op, heads, hc, List.head?_cons, Option.map_some', Option.some.injEq] at hn
      cases hn
      exact (h y hy).2 _ l hc nofun
    | reset =>
      simp only [next, op, heads, hc, List.head?_cons, Option.map_some', Option.some.injEq] at hn
      cases hn
      exact (h y hy).2 _ l hc nofun

/-- The law of a close of the write side: it sends a frame of size 0. -/
theorem shutdown {q : Nat} {k : Proc α}
    (h : ∀ y, Arrivals p x y → Safe p k ((Act.push (p, q) (.frame [])).apply y.1, y.2) Q) :
    Safe p (.shutdown q k) x Q :=
  step (fun _ => nofun) fun y hy u c' hn => by cases hn; exact h y hy

end Safe

-- ---------------------------------------------------------------------------
-- Peers that only send
-- ---------------------------------------------------------------------------

/-- Participant `q`'s code only sends `p` the messages of `l`, in order. -/
inductive Feeds (q p : Nat) : Proc α → List Msg → Prop
  | done {a : α} : Feeds q p (.done a) []
  | crash {l : List Msg} : Feeds q p .crash l
  | send {m : Bytes} {k : Int → Proc α} {l : List Msg} :
      Feeds q p (k m.length) l → Feeds q p (.send p m k) (.frame m :: l)
  | shutdown {k : Proc α} {l : List Msg} :
      Feeds q p k l → Feeds q p (.shutdown p k) (.frame [] :: l)

/-- A step of a feeding participant sends its next message. -/
theorem Feeds.next {q p : Nat} {t u : Proc α} {l : List Msg} {c c' : Chans} (hf : Feeds q p t l)
    (h : t.next q c = some (u, c')) :
    ∃ m l', l = m :: l' ∧ c' = (Act.push (q, p) m).apply c ∧ Feeds q p u l' := by
  cases hf with
  | done => cases h
  | crash => cases h
  | send hk => cases h; exact ⟨_, _, rfl, rfl, hk⟩
  | shutdown hk => cases h; exact ⟨_, _, rfl, rfl, hk⟩

theorem Feeds.bind {q p : Nat} {t : Proc α} {f : α → Proc β} {l l' : List Msg}
    (ht : Feeds q p t l) (hf : ∀ a, Feeds q p (f a) l') : Feeds q p (t >>= f) (l ++ l') := by
  induction ht with
  | done => exact hf _
  | crash => exact .crash
  | send _ ih => exact .send ih
  | shutdown _ ih => exact .shutdown ih

end Proc

namespace Net

/-- Whatever participant `p` has returned, at any point of any run of the group, satisfies `P`. -/
def Always {α : Type} (s : Net α) (p : Nat) (P : α → Prop) : Prop :=
  ∀ t, Reach s t → ∀ v, t.procs p = .done v → P v

/-- A run of the group in which every participant but `p` only sends to `p` is a run of `p`
while their messages arrive: what `p` sees of it is `Proc.Fed`. -/
theorem reach_fed {α : Type} {N N' : Net α} {p : Nat} {later : Nat → List Msg} (h : Reach N N')
    (hf : ∀ q, q ≠ p → Proc.Feeds q p (N.procs q) (later q)) :
    ∃ later', (∀ q, q ≠ p → Proc.Feeds q p (N'.procs q) (later' q)) ∧
      Proc.Fed p (N.procs p, N.chans, later) (N'.procs p, N'.chans, later') := by
  induction h with
  | refl => exact ⟨later, hf, .refl⟩
  | @tail N₁ _ _ hs ih =>
    obtain ⟨later₁, hf₁, hr⟩ := ih
    obtain ⟨hn⟩ := hs
    rename_i r u c'
    by_cases hr' : r = p
    · subst hr'
      refine ⟨later₁, fun q hq => ?_, hr.tail ?_⟩
      · simpa [Function.update_noteq hq] using hf₁ q hq
      · simpa using (Proc.FedStep.step hn : Proc.FedStep _ (_, _, later₁) _)
    · obtain ⟨m, l', hl, rfl, hu⟩ := (hf₁ r hr').next hn
      refine ⟨Function.update later₁ r l', fun q hq => ?_, hr.tail ?_⟩
      · by_cases hqr : q = r
        · subst hqr; simpa using hu
        · simpa [Function.update_noteq hqr] using hf₁ q hq
      · simpa [Function.update_noteq (Ne.symm hr')] using
          Proc.FedStep.arrive (t := N₁.procs p) (Arrive.mk (c := N₁.chans) hl)

end Net

namespace CollM

variable {α β : Type} {p : Nat}

/-- Every run of `m` from state `s` and feed `x` that returns, whatever arrives when, returns a
value and a state where `Q` holds. -/
def Safe (p : Nat) (m : CollM α) (s : State) (x : Feed) (Q : α → State → Feed → Prop) : Prop :=
  Proc.Safe p (m.run s) x fun r y => Q r.1 r.2 y

namespace Safe

variable {m : CollM α} {s : State} {x : Feed} {Q : α → State → Feed → Prop}

theorem mono {Q' : α → State → Feed → Prop} (h : Safe p m s x Q)
    (hQ : ∀ a s' y, Q a s' y → Q' a s' y) : Safe p m s x Q' :=
  Proc.Safe.mono h fun r y => hQ r.1 r.2 y

theorem bind {g : α → CollM β} {Q : β → State → Feed → Prop}
    (h : Safe p m s x fun a s' y => Safe p (g a) s' y Q) : Safe p (m >>= g) s x Q := by
  unfold Safe
  rw [StateT.run_bind]
  exact Proc.Safe.bind h

theorem pure {a : α} (h : ∀ y, Arrivals p x y → Q a s y) : Safe p (Pure.pure a) s x Q :=
  Proc.Safe.done h

theorem crash : Safe p (CollM.crash : CollM α) s x Q := Proc.Safe.crash

/-- Code that runs to `m'` without touching the connections is as safe as `m'`. -/
theorem of_eq {m' : CollM α} {s' : State} (he : m.run s = m'.run s') (h : Safe p m' s' x Q) :
    Safe p m s x Q := by
  unfold Safe; rw [he]; exact h

theorem participantsAt_bind {i : Nat} {h : Handle} {g : Handle → CollM β}
    {Q : β → State → Feed → Prop} (hi : s.participants[i]? = some h) (hs : Safe p (g h) s x Q) :
    Safe p (participantsAt i >>= g) s x Q :=
  of_eq (by rw [StateT.run_bind, run_participantsAt hi]; rfl) hs

theorem get_bind {g : State → CollM β} {Q : β → State → Feed → Prop} (h : Safe p (g s) s x Q) :
    Safe p (get >>= g) s x Q := h

theorem modify_bind {f : State → State} {g : PUnit → CollM β} {Q : β → State → Feed → Prop}
    (h : Safe p (g ⟨⟩) (f s) x Q) : Safe p (modify f >>= g) s x Q := h

theorem setParticipant_bind {i : Nat} {h : Handle} {g : PUnit → CollM β}
    {Q : β → State → Feed → Prop}
    (hs : Safe p (g ⟨⟩) { s with participants := s.participants.set i h } x Q) :
    Safe p (setParticipant i h >>= g) s x Q := hs

/-- The law of `h->probe(size, blocking)`. -/
theorem probe_bind {h : Handle} {b : Bool} {g : ProbeReply → CollM β} {Q : β → State → Feed → Prop}
    (hs : ∀ y, Arrivals p x y →
      (y.1 (h.peer, p) = [] → b = false → Safe p (g (.fail EWOULDBLOCK)) s y Q) ∧
      ∀ m l, y.1 (h.peer, p) = m :: l → Safe p (g m.reply) s y Q) :
    Safe p (StateT.lift (h.probe b) >>= g) s x Q := by
  unfold Safe
  simp only [StateT.run_bind, StateT.run_lift, Handle.probe, Proc.probe_bind, Proc.done_bind]
  exact Proc.Safe.probe hs

/-- The law of `h->receive(buff, n)`. -/
theorem receive_bind {h : Handle} {n : Nat} {g : Option Bytes → CollM β}
    {Q : β → State → Feed → Prop}
    (hs : ∀ y, Arrivals p x y →
      (∀ f l, y.1 (h.peer, p) = .frame f :: l →
        Safe p (g (some (f.take n))) s ((Act.pop (h.peer, p)).apply y.1, y.2) Q) ∧
      ∀ m l, y.1 (h.peer, p) = m :: l → (∀ f, m ≠ .frame f) → Safe p (g none) s y Q) :
    Safe p (StateT.lift (h.receive n) >>= g) s x Q := by
  unfold Safe
  simp only [StateT.run_bind, StateT.run_lift, Handle.receive, Proc.receive_bind, Proc.done_bind]
  exact Proc.Safe.receive hs

/-- The law of `h->close(close_wr, close_rd)`: it sends a frame of size 0 when it closes the
write side for the first time. -/
theorem close_bind {h : Handle} {wr rd : Bool} {g : Handle → CollM β} {Q : β → State → Feed → Prop}
    (hs : ∀ y, Arrivals p x y →
      Safe p (g { h with closedWr := h.closedWr || wr, closedRd := h.closedRd || rd }) s y Q ∧
      Safe p (g { h with closedWr := h.closedWr || wr, closedRd := h.closedRd || rd }) s
        ((Act.push (p, h.peer) (.frame [])).apply y.1, y.2) Q) :
    Safe p (StateT.lift (h.close wr rd) >>= g) s x Q := by
  unfold Safe
  simp only [StateT.run_bind, StateT.run_lift, Handle.close]
  split
  · exact Proc.Safe.shutdown fun y hy => (hs y hy).2
  · exact (hs x .refl).1

/-- A run with nothing arriving is one of the runs `Safe` speaks of. -/
theorem runs {c : Chans} {later : Nat → List Msg} (h : Safe p m s (c, later) Q) {a : α} {s' : State}
    {c' : Chans} (hr : Runs p m s c a s' c') : Q a s' (c', later) :=
  h _ _ (Proc.Fed.of_run later hr)

end Safe

-- ---------------------------------------------------------------------------
-- A run that returns
-- ---------------------------------------------------------------------------

/-- Some run of `m` from state `s`, against the connections `c` with nothing arriving, returns a
value and a state where `Q` holds. -/
def Returns (p : Nat) (m : CollM α) (s : State) (c : Chans) (Q : α → State → Chans → Prop) :
    Prop :=
  ∃ a s' c', Runs p m s c a s' c' ∧ Q a s' c'

namespace Returns

variable {m : CollM α} {s : State} {c : Chans} {Q : α → State → Chans → Prop}

theorem mono {Q' : α → State → Chans → Prop} (h : Returns p m s c Q)
    (hQ : ∀ a s' c', Q a s' c' → Q' a s' c') : Returns p m s c Q' :=
  let ⟨a, s', c', hr, hq⟩ := h
  ⟨a, s', c', hr, hQ a s' c' hq⟩

theorem bind {g : α → CollM β} {Q : β → State → Chans → Prop}
    (h : Returns p m s c fun a s' c' => Returns p (g a) s' c' Q) : Returns p (m >>= g) s c Q :=
  let ⟨_, _, _, h₁, _, _, _, h₂, hQ⟩ := h
  ⟨_, _, _, h₁.bind h₂, hQ⟩

theorem pure {a : α} (h : Q a s c) : Returns p (Pure.pure a) s c Q := ⟨a, s, c, Runs.pure' a s c, h⟩

theorem of_done {a : α} {s' : State} (he : m.run s = .done (a, s')) (h : Q a s' c) :
    Returns p m s c Q :=
  ⟨a, s', c, Runs.of_eq he, h⟩

theorem of_eq {m' : CollM α} {s' : State} (he : m.run s = m'.run s') (h : Returns p m' s' c Q) :
    Returns p m s c Q := by
  obtain ⟨a, s₁, c₁, hr, hQ⟩ := h
  exact ⟨a, s₁, c₁, by unfold Runs; rw [he]; exact hr, hQ⟩

/-- A run that returns, and what every run that returns ends in. -/
theorem and_safe {later : Nat → List Msg} {P : α → State → Feed → Prop} (h : Returns p m s c Q)
    (hs : Safe p m s (c, later) P) : Returns p m s c fun a s' c' => Q a s' c' ∧ P a s' (c', later) :=
  let ⟨a, s', c', hr, hQ⟩ := h
  ⟨a, s', c', hr, hQ, hs.runs hr⟩

theorem get_bind {g : State → CollM β} {Q : β → State → Chans → Prop}
    (h : Returns p (g s) s c Q) : Returns p (get >>= g) s c Q := h

theorem modify_bind {f : State → State} {g : PUnit → CollM β} {Q : β → State → Chans → Prop}
    (h : Returns p (g ⟨⟩) (f s) c Q) : Returns p (modify f >>= g) s c Q := h

theorem setParticipant_bind {i : Nat} {h : Handle} {g : PUnit → CollM β}
    {Q : β → State → Chans → Prop}
    (hs : Returns p (g ⟨⟩) { s with participants := s.participants.set i h } c Q) :
    Returns p (setParticipant i h >>= g) s c Q := hs

theorem participantsAt_bind {i : Nat} {h : Handle} {g : Handle → CollM β}
    {Q : β → State → Chans → Prop} (hi : s.participants[i]? = some h)
    (hs : Returns p (g h) s c Q) : Returns p (participantsAt i >>= g) s c Q :=
  of_eq (by rw [StateT.run_bind, run_participantsAt hi]; rfl) hs

/-- A probe of a connection with something on it reports what stands first. -/
theorem probe_bind {h : Handle} {b : Bool} {g : ProbeReply → CollM β}
    {Q : β → State → Chans → Prop} {m : Msg} {l : List Msg} (hc : c (h.peer, p) = m :: l)
    (hs : Returns p (g m.reply) s c Q) : Returns p (StateT.lift (h.probe b) >>= g) s c Q := by
  obtain ⟨a, s₁, c₁, hr, hQ⟩ := hs
  refine ⟨a, s₁, c₁, ?_, hQ⟩
  unfold Runs
  simp only [StateT.run_bind, StateT.run_lift, Handle.probe, Proc.probe_bind, Proc.done_bind]
  exact Proc.Run.head (Proc.next_probe _ _ hc) hr

/-- A non-blocking probe of an empty connection fails with `EWOULDBLOCK`. -/
theorem probe_empty_bind {h : Handle} {g : ProbeReply → CollM β} {Q : β → State → Chans → Prop}
    (hc : c (h.peer, p) = []) (hs : Returns p (g (.fail EWOULDBLOCK)) s c Q) :
    Returns p (StateT.lift (h.probe false) >>= g) s c Q := by
  obtain ⟨a, s₁, c₁, hr, hQ⟩ := hs
  refine ⟨a, s₁, c₁, ?_, hQ⟩
  unfold Runs
  simp only [StateT.run_bind, StateT.run_lift, Handle.probe, Proc.probe_bind, Proc.done_bind]
  exact Proc.Run.head (Proc.next_probe_empty _ hc) hr

/-- A receive with a frame first on the connection takes it. -/
theorem receive_bind {h : Handle} {n : Nat} {g : Option Bytes → CollM β}
    {Q : β → State → Chans → Prop} {f : Bytes} {l : List Msg} (hc : c (h.peer, p) = .frame f :: l)
    (hs : Returns p (g (some (f.take n))) s ((Act.pop (h.peer, p)).apply c) Q) :
    Returns p (StateT.lift (h.receive n) >>= g) s c Q := by
  obtain ⟨a, s₁, c₁, hr, hQ⟩ := hs
  refine ⟨a, s₁, c₁, ?_, hQ⟩
  unfold Runs
  simp only [StateT.run_bind, StateT.run_lift, Handle.receive, Proc.receive_bind, Proc.done_bind]
  exact Proc.Run.head (Proc.next_receive _ _ hc) hr

/-- A close returns, having sent a frame of size 0 or not. -/
theorem close_bind {h : Handle} {wr rd : Bool} {g : Handle → CollM β}
    {Q : β → State → Chans → Prop}
    (hs : Returns p (g { h with closedWr := h.closedWr || wr, closedRd := h.closedRd || rd }) s c Q ∧
      Returns p (g { h with closedWr := h.closedWr || wr, closedRd := h.closedRd || rd }) s
        ((Act.push (p, h.peer) (.frame [])).apply c) Q) :
    Returns p (StateT.lift (h.close wr rd) >>= g) s c Q := by
  unfold Returns Runs
  simp only [StateT.run_bind, StateT.run_lift, Handle.close]
  split
  · obtain ⟨a, s₁, c₁, hr, hQ⟩ := hs.2
    exact ⟨a, s₁, c₁, Proc.Run.head (Proc.next_shutdown _ _ _ _) hr, hQ⟩
  · exact hs.1

end Returns

end CollM
