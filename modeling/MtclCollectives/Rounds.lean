-- SUMMARY: One call, then several calls, of a collective on the same group: with non-empty frames every call leaves the handles as it found them, so rounds never mix, however far a rank runs ahead, while a receive that fails for want of room puts its rank one round behind; and the root's close ends the group, after any number of rounds, which all-gather and all-to-all non-roots do not report.
import MtclCollectives.Collectives.Broadcast
import MtclCollectives.Collectives.AllGather
import MtclCollectives.Collectives.Alltoall

/-!
# Rounds

With non-empty frames a call leaves every handle as it found it, so calls of one collective
chain round after round and never mix (`RoundsMatch`), however far a rank runs ahead; a failed
receive puts its rank one round behind, and the root's `close` ends the group.
-/

open CollM

namespace Team

variable {g : Team} {α β : Type}

/-- Team rank `r`'s calls of one collective, one round after another: `code c r` for the
arguments `c` of each round, in order, with what each returned. -/
def rounds (code : (Nat → Call) → Nat → CollM α) (r : Nat) : List (Nat → Call) → CollM (List α)
  | [] => pure []
  | c :: cs => do
    let a ← code c r
    let as ← rounds code r cs
    return a :: as

theorem rounds_blocking {code : (Nat → Call) → Nat → CollM α} {cs : List (Nat → Call)}
    (hb : ∀ c r, CollM.Blocking (code c r)) (r : Nat) : CollM.Blocking (rounds code r cs) := by
  induction cs with
  | nil => exact Blocking.pure _
  | cons c cs ih => exact (hb c r).bind fun _ => ih.bind fun _ => Blocking.pure _

/-- Running the rounds `cs` one after another, in every interleaving team rank `r` returns, for
each round, what that round returns when run alone, and ends with its handles as they were. -/
def RoundsMatch (g : Team) (code : (Nat → Call) → Nat → CollM α) (cs : List (Nat → Call)) :
    Prop :=
  ∀ r < g.n, ∃ vs : List α, (g.launch fun r => rounds code r cs).Determined r (vs, g.state r) ∧
    List.Forall₂ (fun c v => (g.launch (code c)).Determined r (v, g.state r)) cs vs

/-- The first round of a sequence, followed by the rest. -/
theorem start_rounds_cons (code : (Nat → Call) → Nat → CollM α) (c : Nat → Call)
    (cs : List (Nat → Call)) (K : Nat → List α × State → Proc β) :
    g.start (fun r => rounds code r (c :: cs)) K =
      g.start (code c) fun r x =>
        (rounds code r cs).run x.2 >>= fun y => K r (x.1 :: y.1, y.2) := by
  simp only [start, rounds, StateT.run_bind, Proc.bind_assoc]
  rfl

/-- When each round goes from its start to its finish whatever comes after it, so does the
sequence. -/
theorem exists_reach_rounds {code : (Nat → Call) → Nat → CollM α}
    (hb : ∀ c r, CollM.Blocking (code c r)) {cs : List (Nat → Call)}
    (hround : ∀ c ∈ cs, ∃ v : Nat → α, ∀ {β : Type} (K : Nat → α × State → Proc β),
      Net.Reach (g.start (code c) K) (g.finish v K)) :
    ∃ V : Nat → List α, (∀ {β : Type} (K : Nat → List α × State → Proc β),
      Net.Reach (g.start (fun r => rounds code r cs) K) (g.finish V K)) ∧
      ∀ r < g.n,
        List.Forall₂ (fun c v => (g.launch (code c)).Determined r (v, g.state r)) cs (V r) := by
  induction cs with
  | nil => exact ⟨fun _ => [], fun _ => .refl, fun _ _ => .nil⟩
  | cons c cs ih =>
    obtain ⟨v, hv⟩ := hround c (List.mem_cons_self _ _)
    obtain ⟨V, hV, hF⟩ := ih fun c' hc' => hround c' (List.mem_cons_of_mem _ hc')
    refine ⟨fun r => v r :: V r, fun K => ?_, fun r hr => .cons ?_ (hF r hr)⟩
    · rw [start_rounds_cons]
      exact (hv _).trans (hV fun r y => K r (v r :: y.1, y.2))
    · exact determined_of_finish (hb c) (hv fun _ => .done) hr

/-- When each round goes from its start to its finish whatever comes after it, the rounds never
mix. -/
theorem roundsMatch {code : (Nat → Call) → Nat → CollM α}
    (hb : ∀ c r, CollM.Blocking (code c r)) {cs : List (Nat → Call)}
    (hround : ∀ c ∈ cs, ∃ v : Nat → α, ∀ {β : Type} (K : Nat → α × State → Proc β),
      Net.Reach (g.start (code c) K) (g.finish v K)) :
    RoundsMatch g code cs := by
  obtain ⟨V, hV, hF⟩ := exists_reach_rounds hb hround
  exact fun r hr =>
    ⟨V r, determined_of_finish (rounds_blocking hb) (hV fun _ => .done) hr, hF r hr⟩

-- ---------------------------------------------------------------------------
-- One call
-- ---------------------------------------------------------------------------

/-- Every handle of a team before a call is idle: nothing pending, read side open. -/
theorem state_idle (g : Team) (r : Nat) {h : Handle} (hh : h ∈ (g.state r).participants) :
    h.Idle := by
  simp only [state_participants, participants] at hh
  split at hh
  · obtain ⟨i, -, rfl⟩ := List.mem_map.mp hh
    exact Handle.fresh_idle _
  · rw [List.mem_singleton.mp hh]
    exact Handle.fresh_idle 0

/-- In every interleaving every rank of the call returns a positive count, and ends with its
handles as they were. -/
def KeepsHandles (g : Team) (code : Nat → CollM (Int × Option Buf)) : Prop :=
  ∀ r < g.n, ∃ v : Int × Option Buf, 0 < v.1 ∧ (g.launch code).Determined r (v, g.state r)

theorem keepsHandles_of_round {code : Nat → CollM (Int × Option Buf)} {v : Nat → Int × Option Buf}
    (hb : ∀ r, CollM.Blocking (code r)) (hR : Net.Reach (g.launch code) (g.finish v fun _ => .done))
    (hv : ∀ r < g.n, 0 < (v r).1) : g.KeepsHandles code :=
  fun r hr => ⟨v r, hv r hr, determined_of_finish hb hR hr⟩

end Team

open Team

/-- Consecutive admitted calls of one rooted collective never mix: in every interleaving each
rank's `j`-th call returns what round `j` returns alone. -/
theorem rounds_never_mix (g : Team) (cs : List (Nat → Call)) :
    ((∀ c ∈ cs, ∃ b S, BroadcastGeneric.Admits g c b S) →
      RoundsMatch g (BroadcastGeneric.code g) cs) ∧
    ((∀ c ∈ cs, ∃ b S ds, ScatterGeneric.Full g c b S ds) →
      RoundsMatch g (ScatterGeneric.code g) cs) ∧
    ((∀ c ∈ cs, ∃ bufs R ds, GatherGeneric.Admits g c bufs R ds) →
      RoundsMatch g (GatherGeneric.code g) cs) ∧
    ((∀ c ∈ cs, ∃ bufs R ds, AllGatherGeneric.Admits g c bufs R ds) →
      RoundsMatch g (AllGatherGeneric.code g) cs) ∧
    ((∀ c ∈ cs, ∃ bufs S ds, AlltoallGeneric.Admits g c bufs S ds) →
      RoundsMatch g (AlltoallGeneric.code g) cs) := by
  refine ⟨fun h => ?_, fun h => ?_, fun h => ?_, fun h => ?_, fun h => ?_⟩
  · refine roundsMatch (BroadcastGeneric.code_blocking g) fun c hc => ?_
    obtain ⟨b, S, hA⟩ := h c hc
    exact ⟨_, BroadcastGeneric.round hA⟩
  · refine roundsMatch (ScatterGeneric.code_blocking g) fun c hc => ?_
    obtain ⟨b, S, ds, hA⟩ := h c hc
    exact ⟨_, ScatterGeneric.round hA⟩
  · refine roundsMatch (GatherGeneric.code_blocking g) fun c hc => ?_
    obtain ⟨bufs, R, ds, hA⟩ := h c hc
    exact ⟨_, GatherGeneric.round hA⟩
  · refine roundsMatch (AllGatherGeneric.code_blocking g) fun c hc => ?_
    obtain ⟨bufs, R, ds, hA⟩ := h c hc
    exact ⟨_, AllGatherGeneric.round hA⟩
  · refine roundsMatch (AlltoallGeneric.code_blocking g) fun c hc => ?_
    obtain ⟨bufs, S, ds, hA⟩ := h c hc
    exact ⟨_, AlltoallGeneric.round hA⟩

/-- Two ranks, two rounds of two one-byte elements, for each collective. -/
theorem rounds_never_mix_two_rounds :
    let g : Team := ⟨2, by decide, by decide⟩
    let c : Nat → Call := fun _ => ⟨some fun _ => 7, 2, some fun _ => 0, 2, 1⟩
    RoundsMatch g (BroadcastGeneric.code g) [c, c] ∧
      RoundsMatch g (ScatterGeneric.code g) [c, c] ∧
      RoundsMatch g (GatherGeneric.code g) [c, c] ∧
      RoundsMatch g (AllGatherGeneric.code g) [c, c] ∧
      RoundsMatch g (AlltoallGeneric.code g) [c, c] := by
  intro g c
  have hc : ∀ x ∈ [c, c], x = c := by simp
  obtain ⟨hB, hS, hG, hA, hT⟩ := rounds_never_mix g [c, c]
  refine ⟨hB fun x hx => ?_, hS fun x hx => ?_, hG fun x hx => ?_, hA fun x hx => ?_,
    hT fun x hx => ?_⟩ <;> rw [hc x hx]
  · exact ⟨fun _ => 7, 2, by decide, rfl, rfl, fun _ _ _ => rfl, fun _ _ _ => le_rfl⟩
  · exact ⟨fun _ => 7, 2, 1, ⟨by decide, by decide, rfl, rfl, rfl, rfl, by simp [chunk]⟩,
      by decide, fun _ _ => rfl, fun _ _ => by simp [chunk]⟩
  · exact ⟨fun _ _ => 7, 2, 1, by decide, by decide, by decide, fun _ _ => rfl,
      fun _ _ => by simp [chunk], fun _ _ => rfl, fun _ _ => rfl, rfl⟩
  · exact ⟨fun _ _ => 7, 2, 1, by decide, by decide, by decide, fun _ _ => rfl,
      fun _ _ => by simp [chunk], fun _ _ => rfl, fun _ _ => rfl, fun _ _ => rfl⟩
  · exact ⟨fun _ _ => 7, 2, 1, by decide, by decide, by decide, by decide, by decide,
      fun _ _ => rfl, fun _ _ => rfl, fun _ _ => by simp [chunk], fun _ _ => rfl, fun _ _ => rfl⟩

/-- A broadcast non-root whose first receive fails with `ENOMEM` takes round one's frame in round
two and stays one round behind. -/
theorem BroadcastGeneric.failed_receive_shifts_rounds (g : Team) (c₁ c₂ : Nat → Call) {r : Nat}
    (hr : 0 < r) (hrn : r < g.n) {b₁ rb₂ : Buf} {S₁ : Nat} (hS : 0 < S₁)
    (hb₁ : (c₁ 0).sendbuff = some b₁) (hS₁ : (c₁ 0).sendsize = S₁)
    (hnomem : (c₁ r).recvsize < S₁)
    (hrb₂ : (c₂ r).recvbuff = some rb₂) (hroom : S₁ ≤ (c₂ r).recvsize) :
    (g.launch fun q => rounds (BroadcastGeneric.code g) q [c₁, c₂]).Determined r
      ([(-1, (c₁ r).recvbuff), (S₁, some (rb₂.write 0 (b₁.slice 0 S₁)))],
        { g.state r with errno := ENOMEM }) := by
  let f₁ := b₁.slice 0 S₁
  let c : Chans := Chans.star (Chans.span 1 g.n fun _ => f₁) fun _ => []
  have hf : f₁ ≠ [] := by simpa [f₁, ← List.length_pos] using hS
  have hc : c ((Handle.fresh 0).peer, r) = .frame f₁ :: [] := by
    simp only [c, Handle.fresh_peer, Chans.star_down, Chans.span_of_mem hr hrn]
  -- the root's first round sends `f₁` to every other rank and returns
  have hroot : Runs 0 (BroadcastGeneric.code g c₁ 0) (g.state 0) (fun _ => [])
      ((S₁ : Int), (c₁ 0).recvbuff.map (·.write 0 f₁)) (g.state 0) c := by
    have h := Runs.of_emits (p := 0) (sendrecv_root_emits g b₁ S₁ (c₁ 0).recvbuff
      (c₁ 0).recvsize) (Chans.star (fun _ => []) fun _ => [])
    rw [Chans.sendAll_star_root (f := fun _ => f₁), Chans.star_empty,
      Nat.sub_add_cancel g.one_le] at h
    rw [BroadcastGeneric.code, hb₁, hS₁]
    exact h
  -- rank `r`'s first call finds no room, its second takes the frame left pending
  have hi := g.participants_getElem?_zero hr.ne'
  let s₁ : State := { g.state r with
    participants := [{ Handle.fresh 0 with probed := (true, S₁) }], errno := ENOMEM }
  have h₁ : Runs r (receiveShare (c₁ r).recvbuff (c₁ r).recvsize) (g.state r) c
      (-1, (c₁ r).recvbuff) s₁ c := by
    simpa [s₁, f₁, Team.participants, hr.ne'] using receiveShare_nomem (s := g.state r)
      (c₁ r).recvbuff hi (Handle.fresh_idle 0) hc hf (by simpa [f₁] using hnomem)
  have h₂ : Runs r (receiveShare (some rb₂) (c₂ r).recvsize) s₁ c (S₁, some (rb₂.write 0 f₁))
      { g.state r with errno := ENOMEM } ((Act.pop (0, r)).apply c) := by
    simpa [s₁, f₁, Team.participants, hr.ne'] using receiveShare_pending (s := s₁)
      (h := { Handle.fresh 0 with probed := (true, f₁.length) }) rb₂ (by simp [s₁, f₁]) rfl rfl hc hf
      (by simpa [f₁] using hroom)
  have hrank : Runs r (rounds (BroadcastGeneric.code g) r [c₁, c₂]) (g.state r) c
      [(-1, (c₁ r).recvbuff), (S₁, some (rb₂.write 0 f₁))] { g.state r with errno := ENOMEM }
      ((Act.pop (0, r)).apply c) := by
    rw [rounds, rounds, rounds, BroadcastGeneric.code_of_ne_zero g _ hr.ne',
      BroadcastGeneric.code_of_ne_zero g _ hr.ne', hrb₂]
    exact h₁.bind ((h₂.bind ((Runs.pure' [] _ _).bind (Runs.pure' [_] _ _))).bind (Runs.pure' [_, _] _ _))
  -- the root runs its first round alone, then rank `r` runs both of its calls
  have e₁ := Net.reach_of_run (s := g.launch fun q => rounds (BroadcastGeneric.code g) q [c₁, c₂])
    (p := 0) (by
      rw [launch_procs g.zero_lt]
      exact Proc.Run.bind _ (hroot.bind_left (g := fun a =>
        rounds (BroadcastGeneric.code g) 0 [c₂] >>= fun as => pure (a :: as))))
  exact Net.determined_of_reach
    (launch_allBlocking fun q => rounds_blocking (BroadcastGeneric.code_blocking g) q)
    (e₁.trans (reach_runs ((Function.update_noteq hr.ne' _ _).trans (launch_procs hrn)) hrank))
    (Function.update_same _ _ _)

/-- Two ranks: rank `1` has room for one byte of the root's first two, then room for two. -/
theorem BroadcastGeneric.failed_receive_shifts_rounds_two_ranks :
    let g : Team := ⟨2, by decide, by decide⟩
    let c₁ : Nat → Call := fun _ => ⟨some fun _ => 7, 2, some fun _ => 0, 1, 1⟩
    let c₂ : Nat → Call := fun _ => ⟨some fun _ => 9, 2, some fun _ => 0, 2, 1⟩
    (g.launch fun q => rounds (BroadcastGeneric.code g) q [c₁, c₂]).Determined 1
      ([(-1, some fun _ => 0), (2, some (Buf.write (fun _ => 0) 0 [7, 7]))],
        { g.state 1 with errno := ENOMEM }) := by
  intro g c₁ c₂
  exact BroadcastGeneric.failed_receive_shifts_rounds g c₁ c₂ one_pos (by decide) (by decide)
    (rfl : (c₁ 0).sendbuff = some fun _ => 7) rfl (by decide)
    (rfl : (c₂ 1).recvbuff = some fun _ => 0) le_rfl

-- ---------------------------------------------------------------------------
-- Teardown
-- ---------------------------------------------------------------------------

namespace Team

variable {g : Team} {α : Type}

/-- Team rank `r` at teardown: the root calls `close`, every other rank is in its next call
`code r`. -/
def teardown (close : CollM Unit) (code : Nat → CollM α) (r : Nat) : CollM (Unit ⊕ α) :=
  if r = 0 then do close; return .inl () else do return .inr (← code r)

theorem teardown_blocking {close : CollM Unit} {code : Nat → CollM α} (hcl : close.Blocking)
    (hc : ∀ r, (code r).Blocking) (r : Nat) : (teardown close code r).Blocking :=
  Blocking.ite (hcl.bind fun _ => Blocking.pure _) ((hc r).bind fun _ => Blocking.pure _)

/-- The root's `close` on a team: one end-of-stream frame to every other rank. -/
theorem closeWhen_root_runs (g : Team) :
    Runs 0 (closeWhen true) (g.state 0) (fun _ => [])
      () { participants := (g.participants 0).map fun h => { h with closedWr := true } }
      (Chans.star (Chans.span 1 g.n fun _ => []) fun _ => []) := by
  have hw : ∀ h ∈ (g.state 0).participants, h.closedWr = false := by
    simp only [state_participants, participants, if_pos, List.mem_map]
    rintro _ ⟨i, -, rfl⟩
    rfl
  have hc : Chans.sendAll (fun _ => []) 0 ((g.participants 0).map fun h => (h.peer, [])) =
      Chans.star (Chans.span 1 g.n fun _ => []) fun _ => [] := by
    have hl : (g.participants 0).map (fun h => (h.peer, ([] : Bytes))) =
        (List.range (g.n - 1)).map fun i => (i + 1, (fun _ => []) (i + 1)) := by
      simp [participants, Function.comp_def]
    rw [hl, ← Chans.star_empty, Chans.sendAll_star_root (f := fun _ => []),
      Nat.sub_add_cancel g.one_le]
  rw [← hc]
  exact closeWhen_runs (g.state 0) hw _

/-- A non-root's `receiveShare` right after the root's `close` reads its end of stream: it
returns 0 with the buffer untouched, and its handle ends closed both ways. -/
theorem receiveShare_after_close {r : Nat} (hr : 0 < r) (hrn : r < g.n) (buff : Option Buf)
    (cap : Nat) :
    Runs r (receiveShare buff cap) (g.state r) (Chans.star (Chans.span 1 g.n fun _ => []) fun _ => [])
      (0, buff)
      { participants := [{ peer := 0, probed := (true, 0), closedRd := true, closedWr := true }] }
      ((Act.push (r, 0) (.frame [])).apply
        (Chans.star (Chans.span 1 g.n fun _ => []) fun _ => [])) := by
  have h₁ : Runs r (receiveShare buff cap) _ _ _ _ _ := receiveShare_eos (s := g.state r) buff
    (g.participants_getElem?_zero hr.ne') (Handle.fresh_idle 0) rfl (l := [])
    (c := Chans.star (Chans.span 1 g.n fun _ => []) fun _ => [])
    (Chans.span_of_mem (f := fun _ => []) hr hrn)
  have hs : (g.state r).participants = [.fresh 0] := by simp [participants, hr.ne']
  rw [hs] at h₁
  exact h₁

/-- At teardown a rank waiting in `receiveShare` returns 0 and closes its handle both ways. -/
theorem close_ends_receiveShare {code : Nat → CollM (Int × Option Buf)}
    (hc : ∀ r, (code r).Blocking) {r : Nat} (hr : 0 < r) (hrn : r < g.n) {buff : Option Buf}
    {cap : Nat} (hcode : code r = receiveShare buff cap) :
    (g.launch (teardown (closeWhen true) code)).Determined r (.inr (0, buff),
      { participants := [{ peer := 0, probed := (true, 0), closedRd := true, closedWr := true }] }) :=
  g.determined_after_root (teardown_blocking (closeWhen_blocking true) hc) hr hrn
    ((closeWhen_root_runs g).bind (Runs.pure' _ _ _))
    (by
      rw [teardown, if_neg hr.ne', hcode]
      exact (receiveShare_after_close hr hrn buff cap).bind (Runs.pure' _ _ _))

/-- At teardown a rank whose call sends and then runs `receiveRest` returns `ret` and closes its
handle both ways. -/
theorem close_ends_receiveRest {code : Nat → CollM (Int × Option Buf)}
    (hc : ∀ r, (code r).Blocking) {r : Nat} (hr : 0 < r) (hrn : r < g.n) {buff : Option Buf}
    {R ret : Nat} {d : Bytes}
    (hnext : ∀ c, ((code r).run (g.state r)).next r c =
      some ((receiveRest buff R ret).run (g.state r), (Act.push (r, 0) (.frame d)).apply c)) :
    (g.launch (teardown (closeWhen true) code)).Determined r (.inr (ret, buff),
      { participants := [{ peer := 0, probed := (true, 0), closedRd := true, closedWr := true }] }) := by
  have h₁ : Runs r (receiveRest buff R ret) _ _ _ _ _ := receiveRest_eos (s := g.state r) buff ret
    (g.participants_getElem?_zero hr.ne') (Handle.fresh_idle 0) rfl (l := [])
    (c := (Act.push (r, 0) (.frame d)).apply (Chans.star (Chans.span 1 g.n fun _ => []) fun _ => []))
    (by rw [Handle.fresh_peer, Chans.push_star_up hr.ne', Chans.star_down, Chans.span_of_mem hr hrn])
  have hs : (g.state r).participants = [.fresh 0] := by simp [participants, hr.ne']
  rw [hs] at h₁
  exact g.determined_after_root (teardown_blocking (closeWhen_blocking true) hc) hr hrn
    ((closeWhen_root_runs g).bind (Runs.pure' _ _ _)) (by
      rw [teardown, if_neg hr.ne']
      exact Runs.bind (Proc.Run.head (hnext _) h₁) (Runs.pure' _ _ _))

/-- Team rank `r`'s whole life: the rounds `cs`, then its call with `next` at teardown. -/
def lifecycle (code : (Nat → Call) → Nat → CollM α) (close : CollM Unit) (cs : List (Nat → Call))
    (next : Nat → Call) (r : Nat) : CollM (List α × (Unit ⊕ α)) := do
  let as ← rounds code r cs
  let t ← teardown close (code next) r
  return (as, t)

/-- A rank's whole life is settled in every interleaving by one run: the rounds, the root's
`close`, then the rank's last call. -/
theorem lifecycle_determined {code : (Nat → Call) → Nat → CollM α} {close : CollM Unit}
    (hb : ∀ c r, (code c r).Blocking) (hcl : close.Blocking) {cs : List (Nat → Call)}
    (hround : ∀ c ∈ cs, ∃ v : Nat → α, ∀ {β : Type} (K : Nat → α × State → Proc β),
      Net.Reach (g.start (code c) K) (g.finish v K))
    {next : Nat → Call} {r : Nat} (hr : 0 < r) (hrn : r < g.n) {s₀ s : State} {c₁ c₂ : Chans}
    {v : α} (h₀ : Runs 0 close (g.state 0) (fun _ => []) () s₀ c₁)
    (h₁ : Runs r (code next r) (g.state r) c₁ v s c₂) :
    ∃ vs : List α, (g.launch (lifecycle code close cs next)).Determined r ((vs, .inr v), s) ∧
      List.Forall₂ (fun c v => (g.launch (code c)).Determined r (v, g.state r)) cs vs := by
  obtain ⟨V, hV, hF⟩ := exists_reach_rounds hb hround
  let K : Nat → List α × State → Proc ((List α × (Unit ⊕ α)) × State) := fun r y =>
    (teardown close (code next) r).run y.2 >>= fun z => .done ((y.1, z.1), z.2)
  have hstart : g.launch (lifecycle code close cs next) = g.start (fun r => rounds code r cs) K := by
    simp only [launch, start, lifecycle, StateT.run_bind, Proc.bind_assoc]
    rfl
  have hroot : Proc.Run 0 (K 0 (V 0, g.state 0), fun _ => []) (.done ((V 0, .inl ()), s₀), c₁) :=
    (h₀.bind (Runs.pure' _ _ _) : Runs 0 (teardown close (code next) 0) _ _ _ _ _).cont _
  have hrank : Proc.Run r (K r (V r, g.state r), c₁) (.done ((V r, .inr v), s), c₂) := by
    have : Runs r (teardown close (code next) r) (g.state r) c₁ (.inr v) s c₂ := by
      rw [teardown, if_neg hr.ne']; exact h₁.bind (Runs.pure' _ _ _)
    exact this.cont _
  have e₁ := Net.reach_of_run (s := g.finish V K) (p := 0)
    (by simpa [finish, g.procs_of_lt g.zero_lt] using hroot)
  have e₂ := Net.reach_of_run (p := r)
    (s := ⟨Function.update (g.finish V K).procs 0 (.done ((V 0, .inl ()), s₀)), c₁⟩) (by
    simpa [Function.update_noteq hr.ne', finish, g.procs_of_lt hrn] using hrank)
  refine ⟨V r, ?_, hF r hrn⟩
  rw [hstart]
  exact Net.determined_of_reach (start_allBlocking (fun r => rounds_blocking hb r)
    fun r y => (teardown_blocking hcl (hb next) r y.2).bind fun _ => .done _)
    ((hV K).trans (e₁.trans e₂)) (Function.update_same _ _ _)

end Team

/-- `BroadcastGeneric::close` ends a broadcast group: a rank waiting in its next `sendrecv` returns
0 and closes its handle. -/
theorem BroadcastGeneric.close_ends_sendrecv (g : Team) (calls : Nat → Call) {r : Nat}
    (hr : 0 < r) (hrn : r < g.n) :
    (g.launch (teardown (BroadcastGeneric.close true) (BroadcastGeneric.code g calls))).Determined r
      (.inr (0, (calls r).recvbuff),
        { participants := [{ peer := 0, probed := (true, 0), closedRd := true, closedWr := true }] }) :=
  close_ends_receiveShare (BroadcastGeneric.code_blocking g calls) hr hrn
    (BroadcastGeneric.code_of_ne_zero g calls hr.ne')

/-- Two ranks: the root closes while rank `1` waits in its next broadcast. -/
theorem BroadcastGeneric.close_ends_sendrecv_two_ranks :
    let g : Team := ⟨2, by decide, by decide⟩
    let calls : Nat → Call := fun _ => ⟨some fun _ => 7, 1, some fun _ => 0, 1, 1⟩
    (g.launch (teardown (BroadcastGeneric.close true) (BroadcastGeneric.code g calls))).Determined 1
      (.inr (0, (calls 1).recvbuff),
        { participants := [{ peer := 0, probed := (true, 0), closedRd := true, closedWr := true }] }) :=
  BroadcastGeneric.close_ends_sendrecv _ _ one_pos (by decide)

/-- At teardown an all-gather or all-to-all non-root returns the positive count of a completed
call, its buffer untouched. -/
theorem teardown_reports_success (g : Team) (calls : Nat → Call) (bufs : Nat → Buf) {r : Nat}
    (hr : 0 < r) (hrn : r < g.n) (R S ds : Nat) :
    let s' : State :=
      { participants := [{ peer := 0, probed := (true, 0), closedRd := true, closedWr := true }] }
    (AllGatherGeneric.Admits g calls bufs R ds →
      0 < (AllGatherGeneric.result g calls bufs R ds r).1 ∧
      (g.launch (teardown AllGatherGeneric.close (AllGatherGeneric.code g calls))).Determined r
        (.inr ((AllGatherGeneric.result g calls bufs R ds r).1, (calls r).recvbuff), s')) ∧
    (AlltoallGeneric.Admits g calls bufs S ds →
      0 < (AlltoallGeneric.result g calls bufs S ds r).1 ∧
      (g.launch (teardown AlltoallGeneric.close (AlltoallGeneric.code g calls))).Determined r
        (.inr ((AlltoallGeneric.result g calls bufs S ds r).1, (calls r).recvbuff), s')) := by
  refine ⟨fun h => ⟨?_, ?_⟩, fun h => ⟨?_, ?_⟩⟩
  · simpa [AllGatherGeneric.result] using chunk_pos g.zero_lt h.le_count h.datasize_pos r
  · obtain ⟨rb, hrb⟩ := Option.isSome_iff_exists.mp (h.recvbuff r hrn)
    have e : AllGatherGeneric.code g calls r = AllGatherGeneric.sendrecv (g.config r)
        (some (bufs r)) (calls r).sendsize (some rb) R ds := by
      simp only [AllGatherGeneric.code, h.sendbuff r hrn, hrb, h.recvsize r hrn, h.datasize r hrn]
    rw [hrb]
    exact close_ends_receiveRest (AllGatherGeneric.code_blocking g calls) hr hrn fun c => by
      rw [e]; exact AllGatherGeneric.sendrecv_nonroot_next g hr (bufs r) rb h.datasize_pos h.dvd
        (h.sendsize r hrn) c
  · simp only [AlltoallGeneric.result]
    exact_mod_cast Nat.mul_pos (chunk_pos g.zero_lt h.le_count h.datasize_pos r) g.zero_lt
  · obtain ⟨rb, hrb⟩ := Option.isSome_iff_exists.mp (h.recvbuff r hrn)
    have hsel := AlltoallGeneric.selfrecvcount_eq h.fits r
    have e : AlltoallGeneric.code g calls r = AlltoallGeneric.sendrecv (g.config r)
        (some (bufs r)) S (some rb) (calls r).recvsize ds := by
      simp only [AlltoallGeneric.code, h.sendbuff r hrn, hrb, h.sendsize r hrn, h.datasize r hrn]
    rw [hrb]
    refine close_ends_receiveRest (AlltoallGeneric.code_blocking g calls) hr hrn
      (R := (calls r).recvsize) (d := (bufs r).slice 0 S) fun c => ?_
    rw [e, AlltoallGeneric.sendrecv_nonroot_next g hr (bufs r) rb h.datasize_pos h.dvd
      (hsel.trans_le (h.recvsize r hrn)) c, hsel]

/-- Two ranks, two one-byte elements: the root closes while rank `1` waits in its next
all-gather, or its next all-to-all, and rank `1` returns 1, or 2, with nothing received. -/
theorem teardown_reports_success_two_ranks :
    let g : Team := ⟨2, by decide, by decide⟩
    let calls : Nat → Call := fun _ => ⟨some fun _ => 7, 2, some fun _ => 0, 2, 1⟩
    let s' : State :=
      { participants := [{ peer := 0, probed := (true, 0), closedRd := true, closedWr := true }] }
    (g.launch (teardown AllGatherGeneric.close (AllGatherGeneric.code g calls))).Determined 1
        (.inr (1, some fun _ => 0), s') ∧
      (g.launch (teardown AlltoallGeneric.close (AlltoallGeneric.code g calls))).Determined 1
        (.inr (2, some fun _ => 0), s') := by
  intro g calls s'
  obtain ⟨hG, hT⟩ := teardown_reports_success g calls (fun _ _ => 7) one_pos (by decide) 2 2 1
  have e₁ : (AllGatherGeneric.result g calls (fun _ _ => 7) 2 1 1).1 = 1 := by decide
  have e₂ : (AlltoallGeneric.result g calls (fun _ _ => 7) 2 1 1).1 = 2 := by decide
  have hG := (hG ⟨by decide, by decide, by decide, fun _ _ => rfl, fun _ _ => by simp [chunk],
    fun _ _ => rfl, fun _ _ => rfl, fun _ _ => rfl⟩).2
  have hT := (hT ⟨by decide, by decide, by decide, by decide, by decide, fun _ _ => rfl,
    fun _ _ => rfl, fun _ _ => by simp [chunk], fun _ _ => rfl, fun _ _ => rfl⟩).2
  rw [e₁] at hG
  rw [e₂] at hT
  exact ⟨hG, hT⟩

/-- In every interleaving a broadcast or scatter rank's calls return what each round returns alone,
and its call at the root's `close` returns 0. -/
theorem lifecycle_ends_with_close (g : Team) (cs : List (Nat → Call)) (next : Nat → Call)
    {r : Nat} (hr : 0 < r) (hrn : r < g.n) :
    let s' : State :=
      { participants := [{ peer := 0, probed := (true, 0), closedRd := true, closedWr := true }] }
    ((∀ c ∈ cs, ∃ b S, BroadcastGeneric.Admits g c b S) →
      ∃ vs, (g.launch (lifecycle (BroadcastGeneric.code g) (BroadcastGeneric.close true) cs
          next)).Determined r ((vs, .inr (0, (next r).recvbuff)), s') ∧
        List.Forall₂ (fun c v => (g.launch (BroadcastGeneric.code g c)).Determined r
          (v, g.state r)) cs vs) ∧
    ((∀ c ∈ cs, ∃ b S ds, ScatterGeneric.Full g c b S ds) → ∀ {buf : Buf},
      (next r).recvbuff = some buf →
      ∃ vs, (g.launch (lifecycle (ScatterGeneric.code g) (ScatterGeneric.close true) cs
          next)).Determined r ((vs, .inr (0, some buf)), s') ∧
        List.Forall₂ (fun c v => (g.launch (ScatterGeneric.code g c)).Determined r
          (v, g.state r)) cs vs) := by
  intro s'
  refine ⟨fun h => ?_, fun h buf hb => ?_⟩
  · have e : BroadcastGeneric.code g next r = receiveShare (next r).recvbuff (next r).recvsize := by
      simp [BroadcastGeneric.code, BroadcastGeneric.sendrecv, hr.ne']
    have h₁ := receiveShare_after_close hr hrn (next r).recvbuff (next r).recvsize
    rw [← e] at h₁
    exact lifecycle_determined (BroadcastGeneric.code_blocking g) (closeWhen_blocking true)
      (fun c hc => by obtain ⟨b, S, hA⟩ := h c hc; exact ⟨_, BroadcastGeneric.round hA⟩) hr hrn
      (closeWhen_root_runs g) h₁
  · have e : ScatterGeneric.code g next r = receiveShare (some buf) (next r).recvsize := by
      simp [ScatterGeneric.code, ScatterGeneric.sendrecv, hr.ne', hb]
    have h₁ := receiveShare_after_close hr hrn (some buf) (next r).recvsize
    rw [← e] at h₁
    exact lifecycle_determined (ScatterGeneric.code_blocking g) (closeWhen_blocking true)
      (fun c hc => by obtain ⟨b, S, ds, hA⟩ := h c hc; exact ⟨_, ScatterGeneric.round hA⟩) hr hrn
      (closeWhen_root_runs g) h₁

/-- Two ranks, two rounds of two one-byte elements, then the root's close, for a broadcast and
for a scatter group. -/
theorem lifecycle_ends_with_close_two_rounds :
    let g : Team := ⟨2, by decide, by decide⟩
    let c : Nat → Call := fun _ => ⟨some fun _ => 7, 2, some fun _ => 0, 2, 1⟩
    let s' : State :=
      { participants := [{ peer := 0, probed := (true, 0), closedRd := true, closedWr := true }] }
    (∃ vs, (g.launch (lifecycle (BroadcastGeneric.code g) (BroadcastGeneric.close true) [c, c]
        c)).Determined 1 ((vs, .inr (0, some fun _ => 0)), s') ∧
      List.Forall₂ (fun c v => (g.launch (BroadcastGeneric.code g c)).Determined 1
        (v, g.state 1)) [c, c] vs) ∧
    (∃ vs, (g.launch (lifecycle (ScatterGeneric.code g) (ScatterGeneric.close true) [c, c]
        c)).Determined 1 ((vs, .inr (0, some fun _ => 0)), s') ∧
      List.Forall₂ (fun c v => (g.launch (ScatterGeneric.code g c)).Determined 1
        (v, g.state 1)) [c, c] vs) := by
  intro g c s'
  have hc : ∀ x ∈ [c, c], x = c := by simp
  obtain ⟨hB, hS⟩ := lifecycle_ends_with_close g [c, c] c one_pos (by decide)
  refine ⟨hB fun x hx => ?_, hS (fun x hx => ?_) rfl⟩ <;> rw [hc x hx]
  · exact ⟨fun _ => 7, 2, by decide, rfl, rfl, fun _ _ _ => rfl, fun _ _ _ => le_rfl⟩
  · exact ⟨fun _ => 7, 2, 1, ⟨by decide, by decide, rfl, rfl, rfl, rfl, by simp [chunk]⟩,
      by decide, fun _ _ => rfl, fun _ _ => by simp [chunk]⟩
