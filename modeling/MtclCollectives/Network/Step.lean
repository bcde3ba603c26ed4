-- SUMMARY: A group of participants exchanging frames over FIFO connections: one participant's step, runs of the group in any interleaving, and their determinacy.
import MtclCollectives.Transport.Proc
import Mathlib.Logic.Relation
import Mathlib.Logic.Function.Basic

/-!
# The group on the wire

Modelled from the spec (§5, §6): first-in first-out connections between every pair of
participants (`Chans`), one step of one participant (`Proc.next`), and runs of the group
(`Net.Step`), which are confluent when all code is blocking (`Net.done_unique`).
-/

/-- The connections: `c (p, q)` holds what `p` has sent to `q` and `q` has not yet taken,
oldest first. -/
abbrev Chans := Nat × Nat → List Msg

/-- What one operation does to the connections. -/
inductive Act where
  | stay
  | push (ch : Nat × Nat) (m : Msg)
  | pop (ch : Nat × Nat)

/-- What the operation does to the messages `l` on the connection `ch`. -/
def Act.edit : Act → Nat × Nat → List Msg → List Msg
  | .stay, _, l => l
  | .push ch' m, ch, l => if ch = ch' then l ++ [m] else l
  | .pop ch', ch, l => if ch = ch' then l.tail else l

/-- The connections after the operation. -/
def Act.apply (a : Act) (c : Chans) : Chans :=
  fun ch => a.edit ch (c ch)

@[simp] theorem Act.apply_stay (c : Chans) : Act.stay.apply c = c := rfl

namespace Proc

variable {α β : Type}

/-- The operation at the root of `t` run by `p`, with `hd q` the oldest message from `q`: the
continuation and its action, or `none` when `t` returned, crashed or waits. -/
def op (p : Nat) (hd : Nat → Option Msg) : Proc α → Option (Proc α × Act)
  | done _ => none
  | crash => none
  | send q m k => some (k m.length, .push (p, q) (.frame m))
  | shutdown q k => some (k, .push (p, q) (.frame []))
  | probe q b k =>
    match hd q with
    | none => if b then none else some (k (.fail EWOULDBLOCK), .stay)
    | some m => some (k m.reply, .stay)
  | receive q n k =>
    match hd q with
    | none => none
    | some (.frame f) => some (k (some (f.take n)), .pop (q, p))
    | some _ => some (k none, .stay)

/-- The oldest message from each peer that `p` has not taken. -/
def heads (c : Chans) (p : Nat) : Nat → Option Msg :=
  fun q => (c (q, p)).head?

/-- One step of participant `p` running `t` against the connections `c`. -/
def next (p : Nat) (c : Chans) (t : Proc α) : Option (Proc α × Chans) :=
  (t.op p (heads c p)).map fun r => (r.1, r.2.apply c)

-- ---------------------------------------------------------------------------
-- Evaluating a step
-- ---------------------------------------------------------------------------

@[simp] theorem next_done (p : Nat) (c : Chans) (a : α) : (done a).next p c = none := rfl
@[simp] theorem next_crash (p : Nat) (c : Chans) : (crash : Proc α).next p c = none := rfl

@[simp] theorem next_send (p q : Nat) (c : Chans) (m : Bytes) (k : Int → Proc α) :
    (send q m k).next p c = some (k m.length, (Act.push (p, q) (.frame m)).apply c) := rfl

@[simp] theorem next_shutdown (p q : Nat) (c : Chans) (k : Proc α) :
    (shutdown q k).next p c = some (k, (Act.push (p, q) (.frame [])).apply c) := rfl

theorem next_probe {p q : Nat} {c : Chans} {m : Msg} {l : List Msg} (b : Bool)
    (k : ProbeReply → Proc α) (hc : c (q, p) = m :: l) :
    (probe q b k).next p c = some (k m.reply, c) := by
  simp [next, op, heads, hc]

theorem next_receive {p q : Nat} {c : Chans} {f : Bytes} {l : List Msg} (n : Nat)
    (k : Option Bytes → Proc α) (hc : c (q, p) = .frame f :: l) :
    (receive q n k).next p c = some (k (some (f.take n)), (Act.pop (q, p)).apply c) := by
  simp [next, op, heads, hc]

/-- A non-blocking probe of an empty connection would block. -/
theorem next_probe_empty {p q : Nat} {c : Chans} (k : ProbeReply → Proc α) (hc : c (q, p) = []) :
    (probe q false k).next p c = some (k (.fail EWOULDBLOCK), c) := by
  simp [next, op, heads, hc]

/-- A blocking probe of an empty connection waits. -/
theorem next_probe_wait {p q : Nat} {c : Chans} (k : ProbeReply → Proc α) (hc : c (q, p) = []) :
    (probe q true k).next p c = none := by
  simp [next, op, heads, hc]

-- ---------------------------------------------------------------------------
-- What a step can do
-- ---------------------------------------------------------------------------

/-- A step of `p` leaves the connections alone, appends to a connection from `p`, or takes the
oldest message of a non-empty connection to `p`. -/
theorem op_act {p : Nat} {hd : Nat → Option Msg} {t u : Proc α} {a : Act}
    (h : t.op p hd = some (u, a)) :
    a = .stay ∨ (∃ q m, a = .push (p, q) m) ∨ (∃ q, a = .pop (q, p) ∧ hd q ≠ none) := by
  cases t with
  | done => cases h
  | crash => cases h
  | send q m k => cases h; exact .inr (.inl ⟨q, _, rfl⟩)
  | shutdown q k => cases h; exact .inr (.inl ⟨q, _, rfl⟩)
  | probe q b k =>
    simp only [op] at h
    split at h
    · split at h <;> cases h; exact .inl rfl
    · cases h; exact .inl rfl
  | receive q n k =>
    simp only [op] at h
    split at h
    · cases h
    · rename_i heq; cases h; exact .inr (.inr ⟨q, rfl, by simp [heq]⟩)
    · cases h; exact .inl rfl

/-- Blocking code that can step keeps its step while the messages it looks at stay. -/
theorem op_congr {p : Nat} {hd hd' : Nat → Option Msg} {t : Proc α} {r : Proc α × Act}
    (hb : Blocking t) (h : t.op p hd = some r) (hs : ∀ q, hd q ≠ none → hd' q = hd q) :
    t.op p hd' = some r := by
  cases hb with
  | done => cases h
  | crash => cases h
  | send => exact h
  | shutdown => exact h
  | @probe q k _ =>
    simp only [op] at h ⊢
    cases hq : hd q with
    | none => simp [hq] at h
    | some m => rw [hs q (by simp [hq]), hq]; simpa [hq] using h
  | @receive q n k _ =>
    simp only [op] at h ⊢
    cases hq : hd q with
    | none => simp [hq] at h
    | some m => rw [hs q (by simp [hq]), hq]; simpa [hq] using h

theorem Blocking.of_op {p : Nat} {hd : Nat → Option Msg} {t u : Proc α} {a : Act}
    (hb : Blocking t) (h : t.op p hd = some (u, a)) : Blocking u := by
  cases hb with
  | done => cases h
  | crash => cases h
  | send hk => cases h; exact hk _
  | shutdown hk => cases h; exact hk
  | probe hk => simp only [op] at h; split at h <;> simp at h; exact h.1 ▸ hk _
  | receive hk => simp only [op] at h; split at h <;> simp at h <;> exact h.1 ▸ hk _

end Proc

namespace Act

/-- A step of another participant `p'` does not change the oldest message of a non-empty
connection to `p`. -/
theorem heads_apply {p p' : Nat} (hp : p ≠ p') {a : Act} {c : Chans}
    (ha : a = .stay ∨ (∃ q m, a = .push (p', q) m) ∨ (∃ q, a = .pop (q, p') ∧ Proc.heads c p' q ≠ none))
    (q : Nat) (hq : Proc.heads c p q ≠ none) : Proc.heads (a.apply c) p q = Proc.heads c p q := by
  simp only [Proc.heads, ne_eq, List.head?_eq_none_iff] at hq
  rcases ha with rfl | ⟨x, m, rfl⟩ | ⟨x, rfl, -⟩
  · rfl
  · simp only [Proc.heads, apply, edit]
    split
    · obtain ⟨y, l, hl⟩ := List.exists_cons_of_ne_nil hq
      simp [hl]
    · rfl
  · simp only [Proc.heads, apply, edit]
    rw [if_neg (by simp [hp])]

/-- Operations of two different participants commute. -/
theorem apply_comm {p p' : Nat} (hp : p ≠ p') {a a' : Act} {c : Chans}
    (ha : a = .stay ∨ (∃ q m, a = .push (p, q) m) ∨ (∃ q, a = .pop (q, p) ∧ Proc.heads c p q ≠ none))
    (ha' : a' = .stay ∨ (∃ q m, a' = .push (p', q) m) ∨ (∃ q, a' = .pop (q, p') ∧ Proc.heads c p' q ≠ none)) :
    a.apply (a'.apply c) = a'.apply (a.apply c) := by
  funext ch
  simp only [apply]
  rcases ha with rfl | ⟨x, m, rfl⟩ | ⟨x, rfl, hx⟩ <;>
    rcases ha' with rfl | ⟨y, m', rfl⟩ | ⟨y, rfl, hy⟩ <;> simp only [edit]
  all_goals
    split_ifs with h₁ h₂ <;> subst_vars <;> simp_all [Proc.heads]

end Act

namespace Proc

variable {α : Type}

/-- **Steps of two different participants commute** when both run blocking code. -/
theorem next_comm {p p' : Nat} (hp : p ≠ p') {t t' u u' : Proc α} (hb : Blocking t)
    (hb' : Blocking t') {c c₁ c₂ : Chans} (h : t.next p c = some (u, c₁))
    (h' : t'.next p' c = some (u', c₂)) :
    ∃ c₃, t'.next p' c₁ = some (u', c₃) ∧ t.next p c₂ = some (u, c₃) := by
  simp only [next, Option.map_eq_some', Prod.mk.injEq] at h h'
  obtain ⟨⟨_, a⟩, ha, rfl, rfl⟩ := h
  obtain ⟨⟨_, a'⟩, ha', rfl, rfl⟩ := h'
  have hA := op_act ha
  have hA' := op_act ha'
  refine ⟨a.apply (a'.apply c), ?_, ?_⟩
  · rw [next, op_congr hb' ha' (Act.heads_apply (Ne.symm hp) hA), Act.apply_comm hp hA hA']
    rfl
  · rw [next, op_congr hb ha (Act.heads_apply hp hA')]
    rfl

theorem Blocking.of_next {p : Nat} {c c' : Chans} {t u : Proc α} (hb : Blocking t)
    (h : t.next p c = some (u, c')) : Blocking u := by
  simp only [next, Option.map_eq_some', Prod.mk.injEq] at h
  obtain ⟨⟨_, a⟩, ha, rfl, -⟩ := h
  exact hb.of_op ha

end Proc

-- ---------------------------------------------------------------------------
-- Runs of the group
-- ---------------------------------------------------------------------------

/-- A group in the middle of a run: each participant's remaining code, by team rank, and the
connections. -/
structure Net (α : Type) where
  procs : Nat → Proc α
  chans : Chans

namespace Net

variable {α : Type} {s t t₁ t₂ : Net α}

/-- One step of the group: some participant performs one operation. -/
inductive Step : Net α → Net α → Prop
  | mk {s : Net α} {p : Nat} {u : Proc α} {c : Chans} :
      (s.procs p).next p s.chans = some (u, c) → Step s ⟨Function.update s.procs p u, c⟩

/-- `t` is reached from `s` by a run of the group, in some interleaving of its participants. -/
abbrev Reach : Net α → Net α → Prop := Relation.ReflTransGen Step

/-- Every participant's code is blocking. -/
def AllBlocking (s : Net α) : Prop := ∀ p, (s.procs p).Blocking

theorem Step.allBlocking (h : Step s t) (hb : s.AllBlocking) : t.AllBlocking := by
  obtain ⟨hn⟩ := h
  rename_i p _ _
  intro q
  by_cases hq : q = p
  · subst hq; simpa using (hb _).of_next hn
  · simpa [Function.update_noteq hq] using hb q

theorem Reach.allBlocking (h : Reach s t) (hb : s.AllBlocking) : t.AllBlocking := by
  induction h with
  | refl => exact hb
  | tail _ hst ih => exact hst.allBlocking ih

/-- A participant that has returned stays returned. -/
theorem Step.done {p : Nat} {a : α} (h : Step s t) (hp : s.procs p = .done a) :
    t.procs p = .done a := by
  obtain ⟨hn⟩ := h
  rename_i q _ _
  by_cases hq : p = q
  · subst hq; simp [hp, Proc.next, Proc.op] at hn
  · simpa [Function.update_noteq hq] using hp

theorem Reach.done {p : Nat} {a : α} (h : Reach s t) (hp : s.procs p = .done a) :
    t.procs p = .done a := by
  induction h with
  | refl => exact hp
  | tail _ hst ih => exact hst.done ih

/-- **The diamond**: two steps from one state are the same step, or each can be completed by
the other. -/
theorem Step.diamond (hb : s.AllBlocking) (h₁ : Step s t₁) (h₂ : Step s t₂) :
    t₁ = t₂ ∨ ∃ u, Step t₁ u ∧ Step t₂ u := by
  obtain ⟨hn₁⟩ := h₁
  rename_i p u c₁
  obtain ⟨hn₂⟩ := h₂
  rename_i p' u' c₂
  by_cases hp : p = p'
  · subst hp
    rw [hn₁] at hn₂
    cases hn₂
    exact .inl rfl
  · obtain ⟨c₃, h₁₃, h₂₃⟩ := Proc.next_comm hp (hb p) (hb p') hn₁ hn₂
    refine .inr ⟨⟨Function.update (Function.update s.procs p u) p' u', c₃⟩, ?_, ?_⟩
    · exact .mk (by simpa [Function.update_noteq (Ne.symm hp)] using h₁₃)
    · rw [Function.update_comm hp]
      exact .mk (by simpa [Function.update_noteq hp] using h₂₃)

/-- **Confluence**: two runs from a state of blocking participants can always be joined. -/
theorem joinable (hb : s.AllBlocking) (h₁ : Reach s t₁) (h₂ : Reach s t₂) :
    ∃ u, Reach t₁ u ∧ Reach t₂ u := by
  let R : Net α → Net α → Prop := fun a b => a.AllBlocking ∧ Step a b
  have lift : ∀ {a b}, a.AllBlocking → Reach a b → Relation.ReflTransGen R a b := by
    intro a b ha hab
    induction hab with
    | refl => exact .refl
    | tail hr hst ih => exact .tail ih ⟨Reach.allBlocking hr ha, hst⟩
  have lower : ∀ {a b}, Relation.ReflTransGen R a b → Reach a b :=
    fun hab => hab.mono fun _ _ h => h.2
  obtain ⟨u, hu₁, hu₂⟩ := Relation.church_rosser (r := R) (fun a b c hab hac => by
      rcases hab.2.diamond hab.1 hac.2 with rfl | ⟨d, hbd, hcd⟩
      · exact ⟨b, .refl, .refl⟩
      · exact ⟨d, .single ⟨hab.2.allBlocking hab.1, hbd⟩,
          .single ⟨hac.2.allBlocking hac.1, hcd⟩⟩)
    (lift hb h₁) (lift hb h₂)
  exact ⟨u, lower hu₁, lower hu₂⟩

/-- **Determinacy**: whatever the interleaving, a participant that returns returns the same
value. -/
theorem done_unique {p : Nat} {a b : α} (hb : s.AllBlocking) (h₁ : Reach s t₁)
    (h₂ : Reach s t₂) (ha : t₁.procs p = .done a) (hb' : t₂.procs p = .done b) : a = b := by
  obtain ⟨u, hu₁, hu₂⟩ := joinable hb h₁ h₂
  have := (hu₁.done ha).symm.trans (hu₂.done hb')
  exact Proc.done.inj this

/-- Once one run has a participant return, every run can be continued until it returns too. -/
theorem reach_done {p : Nat} {b : α} (hb : s.AllBlocking) (h₁ : Reach s t₁)
    (h₂ : Reach s t₂) (hp : t₂.procs p = .done b) : ∃ u, Reach t₁ u ∧ u.procs p = .done b := by
  obtain ⟨u, hu₁, hu₂⟩ := joinable hb h₁ h₂
  exact ⟨u, hu₁, hu₂.done hp⟩

end Net
