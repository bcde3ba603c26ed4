-- SUMMARY: A whole fan-in group: the peers send their messages and close, the root drains; in every interleaving of the members the root's result interleaves all the peers' messages, and some run gets there.
import MtclCollectives.Delivery
import MtclCollectives.Network.Team

/-!
# A fan-in group

Every peer sends its messages and closes while the root drains (spec §8, S5); a peer only sends
to the root, so every run of the group is a run of the root with arrivals, and the root
delivers every peer's messages in every run, and returns in some run.
-/

open CollM

theorem Team.mem_peers (g : Team) {q : Nat} :
    q ∈ (List.range (g.n - 1)).map (· + 1) ↔ 1 ≤ q ∧ q < g.n := by
  simp only [List.mem_map, List.mem_range]
  constructor
  · rintro ⟨i, hi, rfl⟩; omega
  · intro h; exact ⟨q - 1, by omega, by omega⟩

theorem Team.participants_zero (g : Team) :
    g.participants 0 = ((List.range (g.n - 1)).map (· + 1)).map Handle.fresh := by
  simp [Team.participants, Function.comp_def]

/-- The connections after `l` was appended to the connection `ch`. -/
def Chans.append (c : Chans) (ch : Nat × Nat) (l : List Msg) : Chans :=
  fun ch' => if ch' = ch then c ch' ++ l else c ch'

theorem Chans.append_push (c : Chans) (ch : Nat × Nat) (m : Msg) (l : List Msg) :
    Chans.append ((Act.push ch m).apply c) ch l = Chans.append c ch (m :: l) := by
  funext ch'
  by_cases h : ch' = ch <;> simp [Chans.append, Act.apply, Act.edit, h]

@[simp] theorem Chans.append_nil (c : Chans) (ch : Nat × Nat) : Chans.append c ch [] = c := by
  funext ch'; simp [Chans.append]

/-- The connections once the peers below `r` have sent everything, `L q` from peer `q`. -/
def Chans.arrived (L : Nat → List Msg) (r : Nat) : Chans :=
  fun ch => if ch.2 = 0 ∧ 1 ≤ ch.1 ∧ ch.1 < r then L ch.1 else []

theorem Chans.arrived_succ (L : Nat → List Msg) {r : Nat} (hr : 1 ≤ r) :
    Chans.append (Chans.arrived L r) (r, 0) (L r) = Chans.arrived L (r + 1) := by
  funext ⟨a, b⟩
  by_cases h : (a, b) = (r, 0)
  · cases h; simp [Chans.append, Chans.arrived, hr]
  · have : ¬ (b = 0 ∧ a = r) := fun ⟨h₁, h₂⟩ => h (by rw [h₁, h₂])
    simp only [Chans.append, h, ↓reduceIte, Chans.arrived]
    split_ifs <;> first | rfl | (exfalso; omega)

/-- When every peer can run to its end from any connections, appending `L r` to its connection
to the root, the peers below `k + 1` can run, one after another, before the root steps. -/
theorem Team.peers_run (g : Team) {α : Type} {s : Net α} (hs : s.chans = fun _ => [])
    (L : Nat → List Msg) (hrun : ∀ r, 0 < r → r < g.n → ∀ c, ∃ v,
      Proc.Run r (s.procs r, c) (.done v, Chans.append c (r, 0) (L r)))
    (k : Nat) (hk : k < g.n) :
    ∃ N, Net.Reach s N ∧ N.procs 0 = s.procs 0 ∧ N.chans = Chans.arrived L (k + 1) ∧
      ∀ r, k < r → N.procs r = s.procs r := by
  induction k with
  | zero =>
    refine ⟨_, .refl, rfl, ?_, fun _ _ => rfl⟩
    funext ch; simp only [hs, Chans.arrived]; split <;> first | rfl | (exfalso; omega)
  | succ k ih =>
    obtain ⟨N, hN, h0, hc, hr⟩ := ih (by omega)
    obtain ⟨v, hrun⟩ := hrun (k + 1) (by omega) hk N.chans
    rw [← hr _ (by omega), hc, Chans.arrived_succ L (by omega)] at hrun
    refine ⟨_, hN.trans (Net.reach_of_run (hc ▸ hrun)), ?_, rfl, fun r hr' => ?_⟩
    · simpa [Function.update_noteq (show (0 : Nat) ≠ k + 1 by omega)] using h0
    · simpa [Function.update_noteq (show r ≠ k + 1 by omega)] using hr r (by omega)

namespace FanInGeneric

/-- Modelled from the spec (§8, S5): a fan-in peer sends its messages with `send(buff, size)`,
one after another, then closes its end of the group. -/
def feed : List Bytes → CollM Unit
  | [] => close false
  | m :: ms => do
    let _ ← send (some (Buf.ofBytes m)) m.length
    feed ms

/-- A peer's feed sends the root its messages, then a frame of size 0. -/
theorem feed_feeds {q : Nat} {h : Handle} (hp : h.peer = 0) (hw : h.closedWr = false)
    (ms : List Bytes) {s : State} (hs : s.participants = [h]) :
    Proc.Feeds q 0 ((feed ms).run s) (ms.map .frame ++ [.frame []]) := by
  induction ms with
  | nil =>
    simp only [feed, close, closeAt, Bool.false_eq_true, ↓reduceIte, StateT.run_bind, run_participantsAt (show s.participants[0]? = some h by simp [hs]), Proc.done_bind, StateT.run_lift, Handle.close, hw, Bool.not_false, Bool.and_self, hp, Proc.shutdown_bind, Proc.pure_eq, run_setParticipant, List.map_nil, List.nil_append]
    exact .shutdown .done
  | cons m ms ih =>
    simp only [feed, send, sendEach, StateT.run_bind, StateT.run_get, hs, Proc.pure_eq, Proc.done_bind, run_readPtr, StateT.run_lift, Handle.send, Proc.send_bind, Buf.slice_ofBytes, hp]
    refine .send ?_
    simp only [Proc.done_bind, Int.ofNat_nonneg, not_lt.mpr, StateT.run_pure, Proc.pure_eq,
      ↓reduceIte, pure_bind, StateT.run_pure]
    exact ih

/-- The callers of a fan-in group, by team rank (spec §8, S5): the root drains the group and
returns what it received; every other rank feeds its messages `msgs r` and receives nothing. -/
def member (fuel cap : Nat) (buff : Buf) (rounds : Nat) (msgs : Nat → List Bytes) (r : Nat) :
    CollM (List Bytes) :=
  if r = 0 then drain fuel cap buff rounds else do feed (msgs r); return []

/-- The fan-in group `g` before the calls: every rank runs its caller on its fresh handles. -/
def group (g : Team) (fuel cap : Nat) (buff : Buf) (rounds : Nat) (msgs : Nat → List Bytes) :
    Net (List Bytes × State) :=
  ⟨g.procs fun r => (member fuel cap buff rounds msgs r).run (g.state r), fun _ => []⟩

-- ---------------------------------------------------------------------------
-- Every run
-- ---------------------------------------------------------------------------

theorem group_root (g : Team) (msgs : Nat → List Bytes) (fuel cap : Nat) (buff : Buf)
    (rounds : Nat) :
    (group g fuel cap buff rounds msgs).procs 0 = (drain fuel cap buff rounds).run (g.state 0) := by
  simp [group, Team.procs, g.zero_lt, member]

/-- Every peer of the group only sends to the root: its messages, then its end of stream. -/
theorem group_feeds (g : Team) (msgs : Nat → List Bytes) (hne : ∀ r, [] ∉ msgs r)
    (fuel cap : Nat) (buff : Buf) (rounds : Nat) {q : Nat} (hq : q ≠ 0) :
    Proc.Feeds q 0 ((group g fuel cap buff rounds msgs).procs q)
      (PeerStream.msgs ⟨msgs q, .eos, hne q⟩) := by
  simp only [group, Team.procs]
  split
  · simp only [member, hq, ↓reduceIte, StateT.run_bind]
    have := (feed_feeds (q := q) (h := .fresh 0) rfl rfl (msgs q)
      (s := g.state q) (by simp [Team.participants, hq])).bind
      (f := fun x : Unit × State => ((pure [] : CollM (List Bytes)).run x.2)) fun _ => .done
    simpa [PeerStream.msgs, StreamEnd.msg] using this
  · exact .crash

/-- In every run of a fan-in group, once the root has returned it holds an interleaving of all the
peers' messages, each in order, each once, and no handle. -/
theorem group_delivers (g : Team) (msgs : Nat → List Bytes) (hne : ∀ r, [] ∉ msgs r) {cap : Nat}
    (hcap : ∀ r, ∀ m ∈ msgs r, m.length ≤ cap) (fuel rounds : Nat) (buff : Buf) :
    (group g fuel cap buff rounds msgs).Always 0 fun v =>
      Interleaves (fun q => if 1 ≤ q ∧ q < g.n then msgs q else []) v.1 ∧
        v.2.participants = [] := by
  intro N hN v hv
  let σ : Nat → PeerStream := fun q => ⟨msgs q, .eos, hne q⟩
  let qs := (List.range (g.n - 1)).map (· + 1)
  obtain ⟨later, -, hfed⟩ := Net.reach_fed hN fun q hq =>
    (group_feeds g msgs hne fuel cap buff rounds hq : Proc.Feeds q 0 _ (σ q).msgs)
  rw [hv] at hfed
  have hS : Stands 0 σ qs (fun _ => 0) (g.state 0) (fun _ => [], fun q => (σ q).msgs) := by
    rw [Team.state, Team.participants_zero]
    exact stands_start fun q _ => rfl
  have h0 : (0 : Nat) ∉ qs := fun h => by simpa using (Team.mem_peers g).mp h
  rw [group_root] at hfed
  obtain ⟨hI, hnil⟩ := drain_safe (fun _ _ => rfl) h0 (fun q _ m hm => hcap q m hm) fuel buff
    rounds hS _ _ hfed
  have he : remaining σ qs (fun _ => 0) = fun q => if 1 ≤ q ∧ q < g.n then msgs q else [] := by
    funext q; simp only [remaining, qs, σ, Team.mem_peers, List.drop_zero]
  exact ⟨he ▸ hI, hnil⟩

/-- Scenario S5: three ranks, ranks 1 and 2 each send `"x"` and close. -/
theorem group_delivers_s5 :
    (group ⟨3, by decide, by decide⟩ 3 1 (fun _ => 0) 3 fun _ => [[120]]).Always 0 fun v =>
      Interleaves (fun q => if 1 ≤ q ∧ q < 3 then [[120]] else []) v.1 ∧
        v.2.participants = [] :=
  group_delivers ⟨3, by decide, by decide⟩ (fun _ => [[120]]) (fun _ => by simp)
    (fun _ _ hm => by simp_all) 3 3 (fun _ => 0)

-- ---------------------------------------------------------------------------
-- A run where the root returns
-- ---------------------------------------------------------------------------

/-- A peer's feed runs to its end, appending its messages and its end of stream to its
connection to the root. -/
theorem feed_run {q : Nat} {h : Handle} (hp : h.peer = 0) (hw : h.closedWr = false)
    (ms : List Bytes) {s : State} (hs : s.participants = [h]) (c : Chans) :
    ∃ s', Proc.Run q ((feed ms).run s, c)
      (.done ((), s'), Chans.append c (q, 0) (ms.map .frame ++ [.frame []])) := by
  induction ms generalizing c with
  | nil =>
    simp only [feed, close, closeAt, Bool.false_eq_true, ↓reduceIte, StateT.run_bind, run_participantsAt (show s.participants[0]? = some h by simp [hs]), Proc.done_bind, StateT.run_lift, Handle.close, hw, Bool.not_false, Bool.and_self, hp, Proc.shutdown_bind, Proc.pure_eq, run_setParticipant, List.map_nil, List.nil_append]
    rw [← Chans.append_push, Chans.append_nil]
    exact ⟨_, Proc.Run.single (Proc.next_shutdown _ _ _ _)⟩
  | cons m ms ih =>
    simp only [feed, send, sendEach, StateT.run_bind, StateT.run_get, hs, Proc.pure_eq, Proc.done_bind, run_readPtr, StateT.run_lift, Handle.send, Proc.send_bind, Buf.slice_ofBytes, hp]
    obtain ⟨s', hr⟩ := ih ((Act.push (q, 0) (.frame m)).apply c)
    refine ⟨s', Proc.Run.head (Proc.next_send _ _ _ _ _) ?_⟩
    simp only [Proc.done_bind, Int.ofNat_nonneg, not_lt.mpr, StateT.run_pure, Proc.pure_eq,
      ↓reduceIte, pure_bind, StateT.run_pure]
    simpa [Chans.append_push] using hr

/-- A fan-in group can run to the root's return, given enough scan turns and rounds. -/
theorem group_returns (g : Team) (msgs : Nat → List Bytes) (hne : ∀ r, [] ∉ msgs r) {cap : Nat}
    (hcap : ∀ r, ∀ m ∈ msgs r, m.length ≤ cap) {fuel : Nat} (hfuel : g.n ≤ fuel) (buff : Buf)
    {rounds : Nat}
    (hrounds : (((List.range (g.n - 1)).map (· + 1)).map fun q => (msgs q).length).sum < rounds) :
    ∃ N, Net.Reach (group g fuel cap buff rounds msgs) N ∧ ∃ v, N.procs 0 = .done v := by
  have hn := g.zero_lt
  let σ : Nat → PeerStream := fun q => ⟨msgs q, .eos, hne q⟩
  obtain ⟨N, hN, h0, hc, -⟩ := g.peers_run rfl (fun q => (σ q).msgs) (fun r hr hrn c => by
    obtain ⟨s', hrun⟩ := feed_run (q := r) rfl rfl (msgs r)
      (by simp [Team.participants, hr.ne'] : (g.state r).participants = [.fresh 0]) c
    have hp : (group g fuel cap buff rounds msgs).procs r = ((feed (msgs r)).run (g.state r) >>=
        fun x : Unit × State => ((pure [] : CollM (List Bytes)).run x.2)) := by
      simp [group, Team.procs, hrn, member, hr.ne']; rfl
    exact ⟨_, hp ▸ Proc.Run.bind _ hrun⟩) (g.n - 1) (by omega)
  let qs := (List.range (g.n - 1)).map (· + 1)
  have hS : Stands 0 σ qs (fun _ => 0) (g.state 0) (N.chans, fun _ => []) := by
    rw [Team.state, Team.participants_zero]
    refine stands_start fun q hq => ?_
    have := (Team.mem_peers g).mp hq
    rw [hc]
    simp only [Chans.arrived, List.append_nil, true_and, this.1, show q < g.n - 1 + 1 by omega,
      ↓reduceIte]
  have h0' : (0 : Nat) ∉ qs := fun h => by simpa using (Team.mem_peers g).mp h
  have hlen : qs.length < fuel := by simp only [qs, List.length_map, List.length_range]; omega
  have hm : (qs.map fun q => (remaining σ qs (fun _ => 0) q).length).sum < rounds := by
    have : (qs.map fun q => (remaining σ qs (fun _ => 0) q).length) = qs.map fun q => (msgs q).length :=
      List.map_congr_left fun q hq => by simp [remaining, hq, σ]
    rwa [this]
  obtain ⟨out, s', c', hr, -⟩ :=
    drain_runs (fun _ _ => rfl) h0' (fun q _ m hm => hcap q m hm) hlen buff rounds hS hm
  have hrun : Proc.Run 0 (N.procs 0, N.chans) (.done (out, s'), c') := by
    rw [h0, group_root]; exact hr
  exact ⟨_, hN.trans (Net.reach_of_run hrun), (out, s'), by simp⟩

/-- Scenario S5 again: the root can return. -/
theorem group_returns_s5 :
    ∃ N, Net.Reach (group ⟨3, by decide, by decide⟩ 3 1 (fun _ => 0) 3 fun _ => [[120]]) N ∧
      ∃ v, N.procs 0 = .done v :=
  group_returns ⟨3, by decide, by decide⟩ (fun _ => [[120]]) (fun _ => by simp)
    (fun _ _ hm => by simp_all) (le_refl 3) (fun _ => 0) (by decide)

end FanInGeneric
