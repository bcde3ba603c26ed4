-- SUMMARY: A whole fan-out group: the root hands its messages out round-robin and closes, every peer probes and receives until its end of stream; in every interleaving each peer receives exactly its share, in order.
import MtclCollectives.Collectives.Streams
import MtclCollectives.Network.Feed
import MtclCollectives.Network.Team

/-!
# A fan-out group

The root hands its messages out round-robin and closes, each peer probes and receives until its
end of stream (spec §4.9); since every member blocks, one run settles every interleaving, and
peer `r` receives exactly its share `deal msgs (n - 1) (r - 1)`.
-/

open CollM

namespace Proc

variable {α : Type} {p : Nat}

/-- Code that only sends runs to its return without waiting, whatever each send returns. -/
theorem Sends.run {P : α → Prop} {t : Proc α} {l : List (Nat × Bytes)} (h : Sends P t l)
    (c : Chans) : ∃ a, P a ∧ Run p (t, c) (.done a, Chans.sendAll c p l) := by
  induction h generalizing c with
  | done ha => exact ⟨_, ha, Run.refl⟩
  | @send q m k l _ ih =>
    obtain ⟨a, ha, hr⟩ := ih m.length ((Act.push (p, q) (.frame m)).apply c)
    exact ⟨a, ha, Run.head (next_send _ _ _ _ _) hr⟩

end Proc

namespace Chans

/-- What `p`'s sends `l` leave on its connection to `q`: the payloads sent to `q`, in order,
after what stood there. -/
theorem sendAll_apply (c : Chans) (p : Nat) (l : List (Nat × Bytes)) (q : Nat) :
    sendAll c p l (p, q) = c (p, q) ++ (l.filter fun x => x.1 = q).map fun x => .frame x.2 := by
  induction l generalizing c with
  | nil => simp
  | cons x l ih =>
    obtain ⟨a, m⟩ := x
    rw [sendAll_cons, ih]
    by_cases hx : a = q
    · subst hx; simp [Act.apply, Act.edit, List.filter_cons]
    · simp [Act.apply, Act.edit, List.filter_cons, hx, Ne.symm hx]

end Chans

theorem List.filter_range_succ_eq {k r : Nat} (h1 : 1 ≤ r) (h2 : r ≤ k) :
    (List.range k).filter (fun i => i + 1 = r) = [r - 1] := by
  induction k with
  | zero => omega
  | succ k ih =>
    rw [List.range_succ, List.filter_append]
    by_cases hk : k + 1 = r
    · subst hk
      rw [List.filter_eq_nil_iff.mpr fun i hi => by simp at hi ⊢; omega]
      simp
    · rw [ih (by omega)]
      simp [hk]

/-- A caller that takes frames waits only where its probe and receive wait. -/
theorem takeFrames_blocking {probe : CollM (Int × Nat)} {receive : CollM (Int × Option Buf)}
    {buff : Buf} {last : CollM (List Bytes)} (hp : probe.Blocking) (hr : receive.Blocking)
    (hl : last.Blocking) (n : Nat) : CollM.Blocking (takeFrames probe receive buff last n) := by
  induction n with
  | zero => exact hl
  | succ n ih =>
    unfold takeFrames
    simp only [pure_bind]
    exact .bind hp fun _ => .ite (.pure _) (.bind hr fun _ => .ite (.pure _) (.bind ih fun _ => .pure _))

namespace FanOutGeneric

-- ---------------------------------------------------------------------------
-- The callers
-- ---------------------------------------------------------------------------

/-- Modelled from the spec (§4.9): a fan-out root sends each of its messages with
`send(buff, size)`, `buff` holding the message, one after another. -/
def handOut (msgs : List Bytes) : CollM (List Int) :=
  (msgs.map fun m => (Buf.ofBytes m, m.length)).mapM fun m => send (some m.1) m.2

/-- A fan-out root that hands out `msgs` and then closes. -/
def hand (msgs : List Bytes) : CollM Unit := do
  let _ ← handOut msgs
  close true

/-- Modelled from the spec (§4.9): a fan-out peer that takes frames until its end of stream,
at most `n` rounds. -/
def collect (cap : Nat) (buff : Buf) : Nat → CollM (List Bytes) :=
  takeFrames (probe 0 true) (receive (some buff) cap) buff crash

/-- The callers of a fan-out group, by team rank: the root hands out `msgs` and receives
nothing; every other rank collects its share, in at most `rounds` rounds. -/
def member (cap : Nat) (buff : Buf) (rounds : Nat) (msgs : List Bytes) (r : Nat) :
    CollM (List Bytes) :=
  if r = 0 then do hand msgs; return [] else collect cap buff rounds

/-- The messages at the positions `j` of `msgs` with `j % k = i`, in order: what a round-robin
over `k` handles gives the `i`-th. -/
def deal (msgs : List Bytes) (k i : Nat) : List Bytes :=
  (msgs.enum.filter fun x => x.1 % k = i).map Prod.snd

theorem deal_sublist (msgs : List Bytes) (k i : Nat) : (deal msgs k i).Sublist msgs := by
  simpa only [List.enum_map_snd] using (List.filter_sublist msgs.enum).map Prod.snd

/-- Splitting a list by the value of `f` below `k` keeps every element with `f x < k` once. -/
theorem flatMap_filter_perm {α : Type} (l : List α) (f : α → Nat) (k : Nat) :
    ((List.range k).flatMap fun i => l.filter fun x => f x = i).Perm (l.filter fun x => f x < k) := by
  induction k with
  | zero => simp
  | succ k ih =>
    rw [List.range_succ, List.flatMap_append, List.flatMap_singleton]
    refine (ih.append_right _).trans ?_
    have h := List.filter_append_perm (fun x => decide (f x < k)) (l.filter fun x => f x < k + 1)
    simp only [List.filter_filter] at h
    convert h using 2 <;> exact List.filter_congr fun x _ => Bool.eq_iff_iff.mpr (by
      simp only [decide_eq_true_eq, Bool.and_eq_true, Bool.not_eq_true', decide_eq_false_iff_not]
      omega)

/-- Over `k > 0` handles the shares split the messages: taken together, in handle order, they
are the messages, each once. -/
theorem deal_perm (msgs : List Bytes) {k : Nat} (hk : 0 < k) :
    ((List.range k).flatMap (deal msgs k)).Perm msgs := by
  have h := (flatMap_filter_perm msgs.enum (fun x => x.1 % k) k).map Prod.snd
  rw [List.filter_eq_self.mpr fun x _ => decide_eq_true (Nat.mod_lt _ hk), List.enum_map_snd,
    List.map_flatMap] at h
  exact h

-- ---------------------------------------------------------------------------
-- The callers block
-- ---------------------------------------------------------------------------

/-- `h->probe(size, true)` on the handle itself waits for its peer. -/
theorem probeRaw_blocking (h : Handle) (size : Nat) : CollM.Blocking (probeRaw h size true) :=
  .bind (.probe h) fun
    | .header _ => .pure _
    | .eof => .pure _
    | .fail _ => .fail _ _

theorem probe_blocking (size : Nat) : CollM.Blocking (probe size true) := by
  unfold probe
  simp only [pure_bind]
  refine .bind .get fun _ => .ite (.fail _ _) (.bind (.participantsAt 0) fun h =>
    .bind (probeRaw_blocking h size) fun _ =>
      .ite (.bind (.modify _) fun _ => .bind (.close _ _ _) fun _ => ?_) ?_) <;>
  exact .ite (.bind .get fun _ => .ite (.bind (.setParticipant _ _) fun _ => .pure _) (.pure _))
    (.bind .get fun _ => .ite (.bind (.setParticipant _ _) fun _ => .pure _) (.pure _))

theorem receive_blocking (buff : Option Buf) (size : Nat) : CollM.Blocking (receive buff size) :=
  .bind (.participantsAt 0) fun _ => .bind (.bind (.receive _ _) fun
    | some _ => .bind (.writePtr _ _ _) fun _ => .pure _
    | none => .pure _) fun _ => .bind (.setParticipant _ _) fun _ => .pure _

theorem send_blocking (buff : Option Buf) (size : Nat) : CollM.Blocking (send buff size) :=
  .bind .get fun _ => .bind (.participantsAt _) fun _ => .bind (.readPtr _ _ _) fun _ =>
    .bind (.send _ _) fun _ => .bind (.modify _) fun _ => .pure _

theorem handOut_blocking (msgs : List Bytes) : CollM.Blocking (handOut msgs) := by
  unfold handOut
  induction msgs.map fun m => (Buf.ofBytes m, m.length) with
  | nil => exact Blocking.pure _
  | cons m ms ih =>
    rw [List.mapM_cons]
    exact Blocking.bind (send_blocking _ _) fun _ => Blocking.bind ih fun _ => Blocking.pure _

theorem hand_blocking (msgs : List Bytes) : CollM.Blocking (hand msgs) :=
  Blocking.bind (handOut_blocking msgs) fun _ => closeWhen_blocking true

theorem collect_blocking (cap : Nat) (buff : Buf) (n : Nat) : CollM.Blocking (collect cap buff n) :=
  takeFrames_blocking (probe_blocking 0) (receive_blocking _ _) Blocking.crash n

theorem member_blocking (cap : Nat) (buff : Buf) (rounds : Nat) (msgs : List Bytes) (r : Nat) :
    CollM.Blocking (member cap buff rounds msgs r) :=
  Blocking.ite (Blocking.bind (hand_blocking msgs) fun _ => Blocking.pure _)
    (collect_blocking cap buff rounds)

-- ---------------------------------------------------------------------------
-- A peer takes its share
-- ---------------------------------------------------------------------------

variable {p : Nat} {c : Chans} {l : List Msg}

/-- A probe of a peer's handle with a message first on the connection reports its size and
marks the handle probed. -/
theorem probe_frame {m : Bytes} (hm : m ≠ []) (hc : c (0, p) = .frame m :: l) (size : Nat)
    {Q : Int × Nat → State → Chans → Prop}
    (hQ : Q (sizeofSizeT, m.length)
      { participants := [{ Handle.fresh 0 with probed := (true, m.length) }] } c) :
    Returns p (probe size true) { participants := [.fresh 0] } c Q := by
  unfold probe
  refine Returns.get_bind ?_
  simp only [List.cons_ne_nil, ↓reduceIte, pure_bind]
  refine Returns.participantsAt_bind (s := { participants := [.fresh 0] }) (i := 0) rfl ?_
  simp only [probeRaw, bind_assoc]
  refine Returns.probe_bind hc ?_
  simp only [Msg.reply_frame, pure_bind, sizeofSizeT, Nat.ofNat_pos, true_and, gt_iff_lt,
    List.length_eq_zero, hm, ↓reduceIte]
  exact Returns.of_done rfl hQ

/-- A probe of a peer's handle at the end of its stream drops and closes the handle, which
sends the root a frame of size 0. -/
theorem probe_end (hc : c (0, p) = .frame [] :: l) (size : Nat)
    {Q : Int × Nat → State → Chans → Prop} (hQ : ∀ c', Q (sizeofSizeT, 0) { participants := [] } c') :
    Returns p (probe size true) { participants := [.fresh 0] } c Q := by
  unfold probe
  refine Returns.get_bind ?_
  simp only [List.cons_ne_nil, ↓reduceIte, pure_bind]
  refine Returns.participantsAt_bind (s := { participants := [.fresh 0] }) (i := 0) rfl ?_
  simp only [probeRaw, bind_assoc]
  refine Returns.probe_bind hc ?_
  simp only [Msg.reply_frame, List.length_nil, pure_bind, sizeofSizeT, Nat.ofNat_pos, and_self,
    ↓reduceIte, gt_iff_lt]
  refine Returns.modify_bind (Returns.close_bind ⟨?_, ?_⟩) <;> exact Returns.of_done rfl (hQ _)

/-- A receive on a peer's handle takes the message first on the connection, at most `cap`
bytes of it, into `buff`, and clears the handle's probed size. -/
theorem receive_frame {m : Bytes} {pr : Bool × Nat} (hc : c (0, p) = .frame m :: l) (cap : Nat)
    (buff : Buf) {Q : Int × Option Buf → State → Chans → Prop}
    (hQ : Q ((m.take cap).length, some (buff.write 0 (m.take cap))) { participants := [.fresh 0] }
      ((Act.pop (0, p)).apply c)) :
    Returns p (receive (some buff) cap) { participants := [{ Handle.fresh 0 with probed := pr }] } c Q := by
  unfold receive receiveRaw
  refine Returns.participantsAt_bind (s := { participants := [{ Handle.fresh 0 with probed := pr }] }) (i := 0) rfl ?_
  simp only [bind_assoc]
  exact Returns.receive_bind hc (Returns.of_done rfl hQ)

/-- A peer whose connection holds `ms` and then an end of stream takes `ms`, in order, and drops its
handle. -/
theorem collect_returns (buff : Buf) (ms : List Bytes) (hne : [] ∉ ms) {cap : Nat}
    (hcap : ∀ m ∈ ms, m.length ≤ cap) {rounds : Nat} (hr : ms.length < rounds)
    (hc : c (0, p) = ms.map .frame ++ [.frame []]) :
    Returns p (collect cap buff rounds) { participants := [.fresh 0] } c
      fun out s _ => out = ms ∧ s = { participants := [] } := by
  induction ms generalizing rounds c with
  | nil =>
    obtain ⟨n, rfl⟩ := Nat.exists_eq_succ_of_ne_zero (Nat.not_eq_zero_of_lt hr)
    rw [collect, takeFrames]
    refine Returns.bind (probe_end hc 0 fun _ => ?_)
    simp only [sizeofSizeT, or_true, ↓reduceIte]
    exact Returns.pure ⟨rfl, rfl⟩
  | cons m ms ih =>
    obtain ⟨n, rfl⟩ := Nat.exists_eq_succ_of_ne_zero (Nat.not_eq_zero_of_lt hr)
    have hm : m ≠ [] := fun h => hne (h ▸ List.mem_cons_self _ _)
    rw [collect, takeFrames]
    refine Returns.bind (probe_frame hm hc 0 ?_)
    have hgo : ¬ ((sizeofSizeT : Int) ≤ 0 ∨ m.length = 0) := by simp [sizeofSizeT, hm]
    simp only [hgo, ↓reduceIte, pure_bind]
    refine Returns.bind (receive_frame hc cap buff ?_)
    rw [List.take_of_length_le (hcap m (List.mem_cons_self _ _))]
    have hpos : ¬ (m.length : Int) ≤ 0 := by simp [hm]
    simp only [hpos, ↓reduceIte, pure_bind]
    refine Returns.bind ((ih (fun h => hne (List.mem_cons_of_mem _ h))
      (fun m' h => hcap m' (List.mem_cons_of_mem _ h)) (by simp at hr; omega) ?_).mono
      fun out s _ h => ?_)
    · simp [Act.apply, Act.edit, hc]
    · obtain ⟨rfl, rfl⟩ := h
      exact Returns.pure ⟨by simp, rfl⟩

-- ---------------------------------------------------------------------------
-- The root hands everything out
-- ---------------------------------------------------------------------------

/-- Sends of the messages of `msgs` in turn to ranks `j % k + 1` leave on the connection to
rank `r` the share `deal msgs k (r - 1)`. -/
theorem sendAll_deal (c : Chans) (msgs : List Bytes) {k r : Nat} (hr : 0 < r) :
    Chans.sendAll c 0 (msgs.enum.map fun x => (x.1 % k + 1, x.2)) (0, r) =
      c (0, r) ++ (deal msgs k (r - 1)).map .frame := by
  rw [Chans.sendAll_apply, List.filter_map, List.map_map, deal, List.map_map]
  congr 2
  exact List.filter_congr fun x _ => by simp only [Function.comp, decide_eq_decide]; omega

/-- The sends `sends_from` lists for the messages of `msgs`, each from a buffer holding it, when
the `j`-th goes to rank `j % k + 1`. -/
theorem zipWith_sends {f : Nat → Buf × Nat → Nat × Bytes} {k : Nat} (msgs : List Bytes)
    (hf : ∀ j m, f j (Buf.ofBytes m, m.length) = (j % k + 1, m)) :
    List.zipWith f (List.range' 0 (msgs.map fun m => (Buf.ofBytes m, m.length)).length)
      (msgs.map fun m => (Buf.ofBytes m, m.length)) = msgs.enum.map fun x => (x.1 % k + 1, x.2) := by
  rw [← List.map_uncurry_zip_eq_zipWith, List.zip_map_right, List.length_map,
    ← List.range_eq_range', ← List.enum_eq_zip_range, List.map_map]
  exact List.map_congr_left fun x _ => hf x.1 x.2

/-- The root of a group of two or more hands out `msgs`: message `j` goes to rank
`j % (n - 1) + 1`, and the cursor ends at `k % (n - 1)` after `k` messages. -/
theorem handOut_runs (g : Team) (hn : 2 ≤ g.n) (msgs : List Bytes) :
    ∃ a c', Runs 0 (handOut msgs) (g.state 0) (fun _ => []) a
      { g.state 0 with current := msgs.length % (g.n - 1) } c' ∧
      ∀ r, 0 < r → r < g.n → c' (0, r) = (deal msgs (g.n - 1) (r - 1)).map .frame := by
  have hlen : (g.participants 0).length = g.n - 1 := by simp [Team.participants]
  obtain ⟨⟨a, s'⟩, hx, hrun⟩ := (sends_from (msgs.map fun m => (Buf.ofBytes m, m.length)) 0
    (g.state 0) (by simp only [Team.state_participants]; omega) (by rw [Nat.zero_mod]; rfl)).run
    (p := 0) (fun _ => [])
  rw [zipWith_sends (k := g.n - 1) msgs fun j m => by simp [Team.participants, hlen]] at hrun
  have hs : s' = { g.state 0 with current := msgs.length % (g.n - 1) } := by
    simp only at hx; rw [hx]; simp only [Team.state, List.length_map, zero_add, hlen]
  exact ⟨a, _, hs ▸ hrun, fun r hr _ => by rw [sendAll_deal _ _ hr]; rfl⟩

/-- The root hands out `msgs` and closes: after its messages every peer is sent a frame of size
0, and the root ends with every handle write-closed. -/
theorem hand_runs (g : Team) (hn : 2 ≤ g.n) (msgs : List Bytes) :
    ∃ c', Runs 0 (hand msgs) (g.state 0) (fun _ => []) ()
      { participants := (g.participants 0).map fun h => { h with closedWr := true },
        current := msgs.length % (g.n - 1) } c' ∧
      ∀ r, 0 < r → r < g.n → c' (0, r) = (deal msgs (g.n - 1) (r - 1)).map .frame ++ [.frame []] := by
  obtain ⟨a, c', hrun, hc'⟩ := handOut_runs g hn msgs
  have hw : ∀ h ∈ ({ g.state 0 with current := msgs.length % (g.n - 1) } : State).participants,
      h.closedWr = false := by simp [Team.participants]
  refine ⟨_, Runs.bind (g := fun _ => close true) hrun (closeWhen_runs _ hw c'), fun r hr hrn => ?_⟩
  rw [Chans.sendAll_apply, hc' r hr hrn]
  simp only [Team.state_participants, Team.participants, ↓reduceIte, List.map_map,
    Function.comp_def, Handle.fresh_peer, List.filter_map,
    List.filter_range_succ_eq hr (by omega : r ≤ g.n - 1), List.map_cons, List.map_nil]

-- ---------------------------------------------------------------------------
-- Every interleaving
-- ---------------------------------------------------------------------------

/-- In every interleaving peer `r` of a fan-out group receives exactly its round-robin share, and
the root ends with every handle write-closed. -/
theorem group_deals (g : Team) (hn : 2 ≤ g.n) (msgs : List Bytes) (hne : [] ∉ msgs) {cap : Nat}
    (hcap : ∀ m ∈ msgs, m.length ≤ cap) (buff : Buf) {rounds : Nat}
    (hrounds : msgs.length < rounds) :
    (∀ r, 0 < r → r < g.n → (g.launch (member cap buff rounds msgs)).Determined r
      (deal msgs (g.n - 1) (r - 1), { participants := [] })) ∧
    (g.launch (member cap buff rounds msgs)).Determined 0
      ([], { participants := (g.participants 0).map fun h => { h with closedWr := true },
             current := msgs.length % (g.n - 1) }) := by
  have hb := member_blocking cap buff rounds msgs
  obtain ⟨c₁, h₀, hc₁⟩ := hand_runs g hn msgs
  have hroot : Runs 0 (member cap buff rounds msgs 0) _ _ [] _ _ := h₀.bind (Runs.pure' _ _ _)
  refine ⟨fun r hr hrn => ?_, Net.determined_of_reach (Team.launch_allBlocking hb)
    (Team.reach_runs (Team.launch_procs g.zero_lt) hroot)
    (Function.update_same 0 _ (g.launch (member cap buff rounds msgs)).procs)⟩
  have hsub := deal_sublist msgs (g.n - 1) (r - 1)
  obtain ⟨out, s, c₂, hrun, rfl, rfl⟩ := collect_returns buff _ (fun h => hne (hsub.subset h))
    (fun m hm => hcap m (hsub.subset hm)) (hsub.length_le.trans_lt hrounds) (hc₁ r hr hrn)
  have hst : g.state r = { participants := [.fresh 0] } := by
    simp [Team.state, Team.participants, hr.ne']
  have hpeer : Runs r (member cap buff rounds msgs r) (g.state r) c₁ (deal msgs (g.n - 1) (r - 1))
      { participants := [] } c₂ := by
    simpa only [member, hr.ne', ↓reduceIte, hst] using hrun
  exact Team.determined_after_root hb hr hrn hroot hpeer

/-- Three ranks, three one-byte messages: in every interleaving rank 1 receives the first and
the third, rank 2 the second. -/
theorem group_deals_three :
    let g : Team := ⟨3, by decide, by decide⟩
    (g.launch (member 1 (fun _ => 0) 4 [[1], [2], [3]])).Determined 1 ([[1], [3]], { participants := [] }) ∧
    (g.launch (member 1 (fun _ => 0) 4 [[1], [2], [3]])).Determined 2 ([[2]], { participants := [] }) := by
  intro g
  have h := (@group_deals g (by decide) [[1], [2], [3]] (by decide) 1 (by decide) (fun _ => 0) 4
    (by decide)).1
  have h₁ : deal [[1], [2], [3]] (g.n - 1) (1 - 1) = [[1], [3]] := by decide
  have h₂ : deal [[1], [2], [3]] (g.n - 1) (2 - 1) = [[2]] := by decide
  exact ⟨h₁ ▸ h 1 (by decide) (by decide), h₂ ▸ h 2 (by decide) (by decide)⟩

/-- No message is lost or handed out twice: every run can go on until the peers return, and then
their shares together are the messages, each once. -/
theorem group_delivers_each_once (g : Team) (hn : 2 ≤ g.n) (msgs : List Bytes) (hne : [] ∉ msgs)
    {cap : Nat} (hcap : ∀ m ∈ msgs, m.length ≤ cap) (buff : Buf) {rounds : Nat}
    (hrounds : msgs.length < rounds) :
    ∀ t, Net.Reach (g.launch (member cap buff rounds msgs)) t →
      (∃ u, ∃ v : Nat → List Bytes × State, Net.Reach t u ∧
        ∀ r, 0 < r → r < g.n → u.procs r = .done (v r)) ∧
      ∀ v : Nat → List Bytes × State, (∀ r, 0 < r → r < g.n → t.procs r = .done (v r)) →
        (((List.range (g.n - 1)).map (· + 1)).flatMap fun r => (v r).1).Perm msgs := by
  intro t ht
  have hd := (group_deals g hn msgs hne hcap buff hrounds).1
  refine ⟨?_, fun v hv => ?_⟩
  · obtain ⟨u, hu, hdone⟩ := Net.exists_reach_all_done ht hd
    exact ⟨u, _, hu, hdone⟩
  have hshare : ∀ i ∈ List.range (g.n - 1), (v (i + 1)).1 = deal msgs (g.n - 1) i := fun i hi => by
    have hi' : i + 1 < g.n := by simp at hi; omega
    rw [((hd (i + 1) (Nat.succ_pos i) hi') t ht).1 _ (hv _ (Nat.succ_pos i) hi')]; rfl
  rw [List.flatMap_map]
  simpa only [List.flatMap, List.map_congr_left hshare] using deal_perm msgs (by omega : 0 < g.n - 1)

/-- The same three ranks and messages: every run can go on until both peers have returned, and
then they hold the three messages between them, each once. -/
theorem group_delivers_each_once_three :
    let G := (⟨3, by decide, by decide⟩ : Team).launch (member 1 (fun _ => 0) 4 [[1], [2], [3]])
    ∀ t, Net.Reach G t →
      (∃ u, ∃ v : Nat → List Bytes × State, Net.Reach t u ∧
        ∀ r, 0 < r → r < 3 → u.procs r = .done (v r)) ∧
      ∀ v : Nat → List Bytes × State, (∀ r, 0 < r → r < 3 → t.procs r = .done (v r)) →
        ((v 1).1 ++ (v 2).1).Perm [[1], [2], [3]] := by
  intro G t ht
  have h := @group_delivers_each_once ⟨3, by decide, by decide⟩ (by decide) [[1], [2], [3]]
    (by decide) 1 (by decide) (fun _ => 0) 4 (by decide) t ht
  have e : (List.range (3 - 1)).map (· + 1) = [1, 2] := rfl
  exact ⟨h.1, fun v hv => by simpa [e] using h.2 v hv⟩

end FanOutGeneric
