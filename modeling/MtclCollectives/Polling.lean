-- SUMMARY: Code that never waits: its program logic, its progress and termination in every interleaving of a group, and FanInGeneric::probe in non-blocking mode.
import MtclCollectives.Collectives.Streams

/-!
# Polling

`Proc.WaitFree` code always answers at once and has finitely many steps, in every run of the
group; `FanInGeneric::probe` in non-blocking mode is wait-free once its loop may take one turn
per handle (spec §4.8, §5).
-/

namespace Proc

variable {α β : Type} {p : Nat}

/-- Every path of `t` returns a value where `Q` holds, with only sends, closes of the write side
and non-blocking probes on the way. -/
inductive WaitFree (Q : α → Prop) : Proc α → Prop
  | done {a : α} : Q a → WaitFree Q (done a)
  | send {q m k} : (∀ r, WaitFree Q (k r)) → WaitFree Q (send q m k)
  | probe {q k} : (∀ r, WaitFree Q (k r)) → WaitFree Q (probe q false k)
  | shutdown {q k} : WaitFree Q k → WaitFree Q (shutdown q k)

namespace WaitFree

variable {Q Q' : α → Prop} {t u : Proc α}

theorem mono (h : WaitFree Q t) (hQ : ∀ a, Q a → Q' a) : WaitFree Q' t := by
  induction h with
  | done ha => exact .done (hQ _ ha)
  | send _ ih => exact .send ih
  | probe _ ih => exact .probe ih
  | shutdown _ ih => exact .shutdown ih

theorem bind {R : β → Prop} {f : α → Proc β} (h : WaitFree Q t)
    (hf : ∀ a, Q a → WaitFree R (f a)) : WaitFree R (t >>= f) := by
  induction h with
  | done ha => exact hf _ ha
  | send _ ih => exact .send ih
  | probe _ ih => exact .probe ih
  | shutdown _ ih => exact .shutdown ih

/-- A non-blocking probe steps to one of its continuations. -/
theorem probe_next {q : Nat} {k : ProbeReply → Proc α} {c c' : Chans}
    (hn : (Proc.probe q false k).next p c = some (u, c')) : ∃ r, u = k r := by
  simp only [Proc.next, op, Option.map_eq_some'] at hn
  obtain ⟨_, hop, rfl, -⟩ := hn
  split at hop <;> simp only [if_false, Bool.false_eq_true, Option.some.injEq] at hop <;>
    exact ⟨_, (congrArg Prod.fst hop).symm⟩

/-- Code that never waits steps to code that never waits. -/
theorem of_next (h : WaitFree Q t) {c c' : Chans} (hn : t.next p c = some (u, c')) :
    WaitFree Q u := by
  cases h with
  | done => simp at hn
  | send hk => simp only [next_send, Option.some.injEq, Prod.mk.injEq] at hn; exact hn.1 ▸ hk _
  | shutdown hk =>
    simp only [next_shutdown, Option.some.injEq, Prod.mk.injEq] at hn; exact hn.1 ▸ hk
  | probe hk => obtain ⟨r, rfl⟩ := probe_next hn; exact hk r

/-- **Progress**: code that never waits has returned, or can step against any connections. -/
theorem next (h : WaitFree Q t) (c : Chans) :
    (∃ a, t = .done a ∧ Q a) ∨ ∃ u c', t.next p c = some (u, c') := by
  cases h with
  | done ha => exact .inl ⟨_, rfl, ha⟩
  | send => exact .inr ⟨_, _, next_send _ _ _ _ _⟩
  | shutdown => exact .inr ⟨_, _, next_shutdown _ _ _ _⟩
  | @probe q k _ =>
    cases hc : c (q, p) with
    | nil => exact .inr ⟨_, _, next_probe_empty k hc⟩
    | cons m l => exact .inr ⟨_, _, next_probe false k hc⟩

/-- **Termination**: the steps of code that never waits cannot go on forever, whatever the
connections hold at each of them. -/
theorem acc (h : WaitFree Q t) : Acc (fun u t => ∃ c c', t.next p c = some (u, c')) t := by
  induction h with
  | done => exact ⟨_, fun _ ⟨_, _, hn⟩ => by simp at hn⟩
  | send _ ih =>
    exact ⟨_, fun _ ⟨_, _, hn⟩ => by
      simp only [next_send, Option.some.injEq, Prod.mk.injEq] at hn; exact hn.1 ▸ ih _⟩
  | shutdown _ ih =>
    exact ⟨_, fun _ ⟨_, _, hn⟩ => by
      simp only [next_shutdown, Option.some.injEq, Prod.mk.injEq] at hn; exact hn.1 ▸ ih⟩
  | probe _ ih => exact ⟨_, fun _ ⟨_, _, hn⟩ => by obtain ⟨r, rfl⟩ := probe_next hn; exact ih r⟩

/-- Alone, against any connections, code that never waits returns. -/
theorem run (h : WaitFree Q t) (c : Chans) : ∃ a c', Q a ∧ Run p (t, c) (.done a, c') := by
  induction (h.acc (p := p)) generalizing c with
  | intro t _ ih =>
    rcases h.next (p := p) c with ⟨a, rfl, ha⟩ | ⟨u, c', hn⟩
    · exact ⟨a, c, ha, .refl⟩
    · obtain ⟨a, c'', ha, hr⟩ := ih u ⟨c, c', hn⟩ (h.of_next hn) c'
      exact ⟨a, c'', ha, Run.head hn hr⟩

end WaitFree

end Proc

/-- Where a sequence first moves away from its value at `i`. -/
theorem Nat.exists_first_change {β : Type} (g : Nat → β) {i j : Nat} (hij : i ≤ j)
    (hne : g j ≠ g i) : ∃ k, g k = g i ∧ g (k + 1) ≠ g i := by
  induction j, hij using Nat.le_induction with
  | base => exact absurd rfl hne
  | succ j _ ih => by_cases h : g j = g i; exacts [⟨j, h, hne⟩, ih h]

namespace Net

variable {α : Type} {N N' : Net α} {p : Nat} {Q : α → Prop}

/-- A step of the group leaves a participant's code as it was, or takes one step of it. -/
theorem Step.procs_or_next (hs : Step N N') :
    N'.procs p = N.procs p ∨ ∃ c c', (N.procs p).next p c = some (N'.procs p, c') := by
  obtain ⟨hn⟩ := hs
  rename_i q u c
  by_cases hq : p = q
  · subst hq; exact .inr ⟨_, _, by simpa using hn⟩
  · exact .inl (Function.update_noteq hq _ _)

theorem Step.waitFree (hs : Step N N') (h : (N.procs p).WaitFree Q) : (N'.procs p).WaitFree Q := by
  rcases hs.procs_or_next (p := p) with he | ⟨c, c', hn⟩
  · exact he ▸ h
  · exact h.of_next hn

theorem Reach.waitFree (hr : Reach N N') (h : (N.procs p).WaitFree Q) :
    (N'.procs p).WaitFree Q := by
  induction hr with
  | refl => exact h
  | tail _ hs ih => exact hs.waitFree ih

/-- In every run of a group, a participant whose code never waits has returned, with `Q`, or
its next step is enabled. -/
theorem waitFree_progress (hr : Reach N N') (h : (N.procs p).WaitFree Q) :
    (∃ a, N'.procs p = .done a ∧ Q a) ∨ ∃ u c, (N'.procs p).next p N'.chans = some (u, c) :=
  (hr.waitFree h).next N'.chans

/-- No run of a group, however long, gives a participant whose code never waits infinitely many
steps: from some point on its code stays as it is. -/
theorem waitFree_stable (h : (N.procs p).WaitFree Q) (f : Nat → Net α) (h0 : f 0 = N)
    (hf : ∀ i, Step (f i) (f (i + 1))) : ∃ i₀, ∀ i, i₀ ≤ i → (f i).procs p = (f i₀).procs p := by
  suffices key : ∀ t, Acc (fun u t => ∃ c c', t.next p c = some (u, c')) t →
      ∀ i, (f i).procs p = t → ∃ i₀, ∀ j, i₀ ≤ j → (f j).procs p = (f i₀).procs p from
    key _ (h0 ▸ h).acc 0 (by rw [h0])
  intro t ht
  induction ht with
  | intro t _ ih =>
    intro i hi
    by_cases hall : ∀ j, i ≤ j → (f j).procs p = (f i).procs p
    · exact ⟨i, hall⟩
    · push_neg at hall
      obtain ⟨j, hij, hj⟩ := hall
      obtain ⟨k, hk, hk1⟩ := Nat.exists_first_change (fun j => (f j).procs p) hij hj
      rcases (hf k).procs_or_next (p := p) with he | ⟨c, c', hn⟩
      · exact absurd (he.trans hk) hk1
      · exact ih _ ⟨c, c', hi ▸ hk ▸ hn⟩ (k + 1) rfl

end Net

namespace CollM

variable {α β : Type}

/-- Every path of `m` run from `s` returns a value and a state where `Q` holds, and no step of
it waits. -/
def WaitFree (m : CollM α) (s : State) (Q : α → State → Prop) : Prop :=
  (m.run s).WaitFree fun r => Q r.1 r.2

namespace WaitFree

variable {m : CollM α} {s : State} {Q : β → State → Prop}

theorem bind {g : α → CollM β} (h : WaitFree m s fun a s' => WaitFree (g a) s' Q) :
    WaitFree (m >>= g) s Q := by
  unfold WaitFree
  rw [StateT.run_bind]
  exact Proc.WaitFree.bind h fun _ hr => hr

theorem mono {Q' : β → State → Prop} {m : CollM β} (h : WaitFree m s Q)
    (hQ : ∀ a s', Q a s' → Q' a s') : WaitFree m s Q' :=
  Proc.WaitFree.mono h fun r => hQ r.1 r.2

theorem pure {a : β} (h : Q a s) : WaitFree (Pure.pure a) s Q := .done h

theorem get_bind {g : State → CollM β} (h : WaitFree (g s) s Q) : WaitFree (get >>= g) s Q := h

theorem modify_bind {f : State → State} {g : PUnit → CollM β} (h : WaitFree (g ⟨⟩) (f s) Q) :
    WaitFree (modify f >>= g) s Q := h

theorem setParticipant_bind {i : Nat} {h : Handle} {g : PUnit → CollM β}
    (hs : WaitFree (g ⟨⟩) { s with participants := s.participants.set i h } Q) :
    WaitFree (setParticipant i h >>= g) s Q := hs

theorem participantsAt_bind {i : Nat} {h : Handle} {g : Handle → CollM β}
    (hi : s.participants[i]? = some h) (hs : WaitFree (g h) s Q) :
    WaitFree (participantsAt i >>= g) s Q := by
  unfold WaitFree
  rw [StateT.run_bind, run_participantsAt hi]
  exact hs

/-- The law of `h->probe(size, false)`: whatever it reports. -/
theorem probe_bind {h : Handle} {g : ProbeReply → CollM β} (hs : ∀ r, WaitFree (g r) s Q) :
    WaitFree (StateT.lift (h.probe false) >>= g) s Q := by
  unfold WaitFree
  simp only [StateT.run_bind, StateT.run_lift, Handle.probe, Proc.probe_bind, Proc.done_bind]
  exact .probe hs

/-- The law of `h->close(close_wr, close_rd)`. -/
theorem close_bind {h : Handle} {wr rd : Bool} {g : Handle → CollM β}
    (hs : WaitFree (g { h with closedWr := h.closedWr || wr, closedRd := h.closedRd || rd }) s Q) :
    WaitFree (StateT.lift (h.close wr rd) >>= g) s Q := by
  unfold WaitFree
  simp only [StateT.run_bind, StateT.run_lift, Handle.close]
  split
  · exact .shutdown hs
  · exact hs

end WaitFree

end CollM

namespace FanInGeneric

open CollM

/-- What `FanInGeneric::receive` needs after a probe that reported a message of `size > 0`
bytes: `probed_idx` names a handle, and that handle holds the size probed. -/
def Reported (r : Int × Nat) (s : State) : Prop :=
  0 < r.1 → 0 < r.2 →
    ∃ h, 0 ≤ s.probedIdx ∧ s.participants[s.probedIdx.toNat]? = some h ∧ h.probed = (true, r.2)

/-- The end of a turn in non-blocking mode: the scan stops past the last handle. -/
theorem advance_never_waits {k : Nat → Int → Nat → CollM (Int × Nat)} {iter : Nat} {res : Int}
    {size : Nat} {s : State} {Q : Int × Nat → State → Prop} (hQ : Q (res, size) s)
    (hk : iter + 1 ≠ s.participants.length → WaitFree (k (iter + 1) res size) s Q) :
    WaitFree (advance false k iter res size) s Q := by
  unfold advance
  refine WaitFree.get_bind ?_
  split
  · exact WaitFree.pure hQ
  · exact hk ‹_›

/-- The loop of `probe(size, false)`, at `participants[iter]` with at least one turn left per
handle from there on, never waits, and a message it reports is recorded for `receive`. -/
theorem scan_never_waits (fuel iter : Nat) (res : Int) (size : Nat) {s : State}
    (hR : Reported (res, size) s) (hit : s.participants ≠ [] → iter < s.participants.length)
    (hfuel : s.participants.length ≤ fuel + iter) :
    WaitFree (scan false fuel iter res size) s fun r s' => Reported r s' := by
  induction fuel generalizing iter res size s with
  | zero =>
    unfold scan
    refine WaitFree.get_bind ?_
    by_cases hgo : res = -1 ∧ s.participants ≠ []
    · have := hit hgo.2
      omega
    · simp only [hgo, decide_False, Bool.not_false, ↓reduceIte]
      exact WaitFree.pure hR
  | succ fuel ih =>
    unfold scan
    refine WaitFree.get_bind ?_
    by_cases hgo : res = -1 ∧ s.participants ≠ []
    swap
    · simp only [hgo, decide_False, Bool.not_false, ↓reduceIte]
      exact WaitFree.pure hR
    obtain ⟨rfl, hne⟩ := hgo
    have hlt := hit hne
    obtain ⟨h, hi⟩ : ∃ h, s.participants[iter]? = some h := ⟨_, List.getElem?_eq_getElem hlt⟩
    simp only [hne, ne_eq, not_false_eq_true, and_self, decide_True, Bool.not_true,
      Bool.false_eq_true, ↓reduceIte, pure_bind, bind_assoc]
    refine WaitFree.participantsAt_bind hi ?_
    simp only [probeRaw, bind_assoc]
    refine WaitFree.probe_bind fun r => ?_
    have hno : ∀ {r : Int} {sz : Nat} {s' : State}, r ≤ 0 → Reported (r, sz) s' :=
      fun hr h => absurd h (by simpa using hr)
    cases r with
    | header sz =>
      simp only [pure_bind, sizeofSizeT, gt_iff_lt, Nat.ofNat_pos, true_and, ↓reduceIte]
      by_cases hsz : sz = 0
      · simp only [hsz, ↓reduceIte, bind_assoc]
        refine WaitFree.modify_bind (WaitFree.close_bind (WaitFree.get_bind ?_))
        have hlen : ({ s with participants := s.participants.eraseIdx iter } : State).participants.length =
            s.participants.length - 1 := by
          simp [List.length_eraseIdx, hlt]
        split
        · exact WaitFree.pure (hno (by decide))
        · exact advance_never_waits (hno (by decide)) fun hn' =>
            ih (iter + 1) (-1) 0 (hno (by decide)) (fun _ => by omega) (by omega)
      · simp only [hsz, ↓reduceIte]
        refine WaitFree.modify_bind (WaitFree.setParticipant_bind ?_)
        let s₁ : State := { s with probedIdx := iter }
        have hrep : Reported (8, sz)
            { s₁ with participants := s₁.participants.set iter { h with probed := (true, sz) } } :=
          fun _ _ => ⟨{ h with probed := (true, sz) }, Int.natCast_nonneg iter, by simp [s₁, hlt], rfl⟩
        exact advance_never_waits hrep fun hn' =>
          ih (iter + 1) 8 sz hrep (fun _ => by simp only [s₁, List.length_set] at hn' ⊢; omega)
            (by simp only [s₁, List.length_set]; omega)
    | eof =>
      simp only [pure_bind, gt_iff_lt, lt_irrefl, false_and, ↓reduceIte]
      exact advance_never_waits (hno le_rfl) fun hn' =>
        ih (iter + 1) 0 size (hno le_rfl) (fun _ => by omega) (by omega)
    | fail e =>
      simp only [pure_bind, bind_assoc, gt_iff_lt, Int.reduceNeg, Int.reduceLT, false_and,
        ↓reduceIte]
      refine WaitFree.modify_bind ?_
      exact advance_never_waits (hno (by decide)) fun hn' =>
        ih (iter + 1) (-1) size (hno (by decide)) (fun _ => by simp only at hn' ⊢; omega)
          (by simp only; omega)

/-- `FanInGeneric::probe(size, false)` never waits, and a message it reports is recorded at
`probed_idx`. -/
theorem probe_never_waits (fuel size : Nat) {s : State} (hfuel : s.participants.length ≤ fuel) :
    WaitFree (probe fuel size false) s fun r s' => Reported r s' := by
  unfold probe
  refine WaitFree.bind ((scan_never_waits fuel 0 (-1) size (fun h => by simp at h)
    (fun hne => List.length_pos.mpr hne) (by omega)).mono fun ⟨res, sz⟩ s' hR => ?_)
  refine WaitFree.get_bind ?_
  split
  · exact WaitFree.pure fun _ h => absurd h (lt_irrefl 0)
  · exact WaitFree.pure hR

/-- A participant polling with `probe(size, false)` has, in every run, returned or an enabled step,
and no run gives it infinitely many steps. -/
theorem polling_never_waits (fuel size : Nat) {s : State} (hfuel : s.participants.length ≤ fuel)
    {N : Net ((Int × Nat) × State)} {p : Nat} (hp : N.procs p = (probe fuel size false).run s) :
    (∀ N', Net.Reach N N' → (∃ r s', N'.procs p = .done (r, s') ∧ Reported r s') ∨
      ∃ u c, (N'.procs p).next p N'.chans = some (u, c)) ∧
    ∀ f : Nat → Net ((Int × Nat) × State), f 0 = N → (∀ i, Net.Step (f i) (f (i + 1))) →
      ∃ i₀, ∀ i, i₀ ≤ i → (f i).procs p = (f i₀).procs p := by
  have hw : (N.procs p).WaitFree fun x => Reported x.1 x.2 := hp ▸ probe_never_waits fuel size hfuel
  refine ⟨fun N' hr => ?_, fun f h0 hf => Net.waitFree_stable hw f h0 hf⟩
  rcases Net.waitFree_progress hr hw with ⟨⟨r, s'⟩, he, hR⟩ | hn
  · exact .inl ⟨r, s', he, hR⟩
  · exact .inr hn

/-- Two peers, a loop of two turns: every participant of the group polls. -/
theorem polling_never_waits_two_peers :
    let s : State := { participants := [.fresh 1, .fresh 2] }
    let N : Net ((Int × Nat) × State) := ⟨fun _ => (probe 2 0 false).run s, fun _ => []⟩
    (∀ N', Net.Reach N N' → (∃ r s', N'.procs 0 = .done (r, s') ∧ Reported r s') ∨
      ∃ u c, (N'.procs 0).next 0 N'.chans = some (u, c)) ∧
    ∀ f : Nat → Net ((Int × Nat) × State), f 0 = N → (∀ i, Net.Step (f i) (f (i + 1))) →
      ∃ i₀, ∀ i, i₀ ≤ i → (f i).procs 0 = (f i₀).procs 0 :=
  polling_never_waits 2 0 (by decide) rfl

end FanInGeneric
