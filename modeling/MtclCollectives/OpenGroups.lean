-- SUMMARY: Groups that stay open: while no member closes and every frame is non-empty, every call of a rooted collective, round after round, and every fan-in or fan-out operation leaves each handle as it was, so no data frame is read as an end of stream and the next operation delivers.
import MtclCollectives.Rounds
import MtclCollectives.FanInGroup
import MtclCollectives.FanOutGroup

/-!
# Groups that stay open

The framing reads a frame of size 0 as the end of a stream (spec §3). While no member closes and
every frame is non-empty, no handle is read-closed or left with a pending size: rooted calls keep
their handles round after round, a fan-in root stays `Open` on its peers' streams, and a fan-out
peer takes its share frame by frame.
-/

open CollM

theorem List.set_self_of_getElem? {α : Type} {l : List α} {i : Nat} {a : α} (h : l[i]? = some a) :
    l.set i a = l :=
  List.ext_getElem? fun j => by
    by_cases hij : i = j
    · subst hij; rw [List.getElem?_set_self (List.getElem?_eq_some_iff.mp h).1, h]
    · rw [List.getElem?_set_ne hij]

theorem Team.peers_zero (g : Team) :
    (g.participants 0).map Handle.peer = (List.range (g.n - 1)).map (· + 1) := by
  simp [Team.participants_zero, Function.comp_def]

theorem Team.participants_zero_ne_nil (g : Team) (hn : 2 ≤ g.n) : g.participants 0 ≠ [] := by
  simp [Team.participants]; omega

namespace FanInGeneric

variable {p : Nat} {hs : List Handle} {rem : Nat → List Bytes} {s : State} {x : Feed}

/-- Modelled from the spec (§4.8): a fan-in root's next `n` operations, each a
`probe(size, true)` followed by a `receive(buff, cap)`: the payloads received, in order. -/
def take (fuel cap : Nat) (buff : Buf) : Nat → CollM (List Bytes) :=
  takeFrames (probe fuel 0 true) (receive (some buff) cap) buff (pure [])

/-- Modelled from the spec (§8): a fan-in peer that sends its messages with `send(buff, size)`,
one after another, and does not close. -/
def post : List Bytes → CollM Unit
  | [] => pure ()
  | m :: ms => do
    let _ ← send (some (Buf.ofBytes m)) m.length
    post ms

/-- The callers of a fan-in group that stays open: the root makes its next `n` operations; every
other rank posts its messages `msgs r` and receives nothing. -/
def openMember (fuel cap : Nat) (buff : Buf) (n : Nat) (msgs : Nat → List Bytes) (r : Nat) :
    CollM (List Bytes) :=
  if r = 0 then take fuel cap buff n else do post (msgs r); return []

-- ---------------------------------------------------------------------------
-- Every run
-- ---------------------------------------------------------------------------

/-- A fan-in root of a group that never closes holds `hs`, nothing probed, and each peer's
connection followed by what is to come is the rest `rem q` of its messages. -/
structure Open (p : Nat) (hs : List Handle) (rem : Nat → List Bytes) (s : State) (x : Feed) :
    Prop where
  parts : s.participants = hs
  idx : s.probedIdx = -1
  rest : ∀ q ∈ hs.map Handle.peer, x.1 (q, p) ++ x.2 q = (rem q).map .frame

theorem Open.arrivals {y : Feed} (hO : Open p hs rem s x) (hy : Arrivals p x y) :
    Open p hs rem s y :=
  ⟨hO.parts, hO.idx, fun q hq => (hy.pending q).trans (hO.rest q hq)⟩

theorem ne_nil_of_head (hrem : ∀ q, [] ∉ rem q) {q : Nat} {f : Bytes} {l : List Bytes}
    (hf : rem q = f :: l) : f ≠ [] :=
  fun e => hrem q (by rw [hf, e]; exact List.mem_cons_self _ _)

/-- Where the scan of an open root stops: at `participants[i]`, whose peer's next message `f`
stands first on its connection, with its size recorded. -/
def Hit (p : Nat) (hs : List Handle) (rem : Nat → List Bytes) (r : Int × Nat) (s : State)
    (y : Feed) : Prop :=
  r.1 = sizeofSizeT ∧ ∃ i h f l, hs[i]? = some h ∧ rem h.peer = f :: l ∧ r.2 = f.length ∧
    s.participants = hs.set i { h with probed := (true, f.length) } ∧ s.probedIdx = i ∧
    (∃ l', y.1 (h.peer, p) = .frame f :: l') ∧
    ∀ q ∈ hs.map Handle.peer, y.1 (q, p) ++ y.2 q = (rem q).map .frame

theorem Hit.arrivals {r : Int × Nat} {y z : Feed} (hH : Hit p hs rem r s y) (hz : Arrivals p y z) :
    Hit p hs rem r s z := by
  obtain ⟨hr, i, h, f, l, hi, hf, hsz, hp, hidx, ⟨l', hc⟩, hrest⟩ := hH
  obtain ⟨l'', hl⟩ := hz.append (h.peer, p)
  exact ⟨hr, i, h, f, l, hi, hf, hsz, hp, hidx, ⟨l' ++ l'', by rw [hl, hc]; rfl⟩,
    fun q hq => (hz.pending q).trans (hrest q hq)⟩

/-- A hit reports a positive result and a positive size, so its caller goes on to receive. -/
theorem Hit.go (hrem : ∀ q, [] ∉ rem q) {r : Int × Nat} {y : Feed} (hH : Hit p hs rem r s y) :
    ¬ (r.1 ≤ 0 ∨ r.2 = 0) := by
  obtain ⟨hr, i, h, f, l, -, hf, hsz, -⟩ := hH
  have := List.length_pos.mpr (ne_nil_of_head hrem hf)
  simp only [sizeofSizeT] at hr
  omega

theorem scan_open (hne : hs ≠ []) (hrem : ∀ q, [] ∉ rem q) (fuel : Nat) :
    ∀ {iter size s x}, Open p hs rem s x →
      CollM.Safe p (scan true fuel iter (-1) size) s x (Hit p hs rem) := by
  induction fuel with
  | zero =>
    intro iter size s x hO
    unfold CollM.Safe; rw [run_scan_zero (by rw [hO.parts]; exact hne)]; exact Proc.Safe.crash
  | succ fuel ih =>
  intro iter size s x hO
  rw [scan.eq_2]
  refine Safe.get_bind ?_
  simp only [Int.reduceNeg, ne_eq, true_and, decide_not, Bool.not_not, decide_eq_true_eq, hO.parts,
    hne, not_false_eq_true, decide_True, Bool.not_true, Bool.false_eq_true, ↓reduceIte, pure_bind]
  cases hi : hs[iter]? with
  | none =>
    unfold CollM.Safe; rw [StateT.run_bind, run_participantsAt_none (by rw [hO.parts]; exact hi)]
    exact Proc.Safe.crash
  | some h =>
  have hq : h.peer ∈ hs.map Handle.peer := List.mem_map_of_mem _ (List.mem_iff_getElem?.mpr ⟨_, hi⟩)
  refine Safe.participantsAt_bind (by rw [hO.parts]; exact hi) ?_
  simp only [probeRaw, Handle.probe, bind_assoc]
  refine Safe.probe_bind fun y hy => ⟨fun _ _ => ?_, fun m l hc => ?_⟩
  · simp only [setErrno, bind_assoc, pure_bind, Int.reduceLT, false_and, ↓reduceIte]
    exact Safe.modify_bind (advance_safe fun j => ih ⟨hO.parts, hO.idx, (hO.arrivals hy).rest⟩)
  have hr := (hO.arrivals hy).rest _ hq
  rw [hc, List.cons_append] at hr
  obtain ⟨f, l', hf, rfl⟩ : ∃ f l', rem h.peer = f :: l' ∧ m = .frame f := by
    cases hrq : rem h.peer with
    | nil => rw [hrq] at hr; cases hr
    | cons f l' => rw [hrq, List.map_cons, List.cons.injEq] at hr; exact ⟨f, l', rfl, hr.1⟩
  have hfne : f ≠ [] := ne_nil_of_head hrem hf
  simp only [Msg.reply_frame, pure_bind, sizeofSizeT, Nat.ofNat_pos, true_and, gt_iff_lt,
    List.length_eq_zero, hfne, ↓reduceIte]
  refine Safe.modify_bind (Safe.setParticipant_bind (advance_safe fun j => ?_))
  unfold CollM.Safe
  rw [run_scan_stop (by simp [sizeofSizeT])]
  refine Proc.Safe.done fun z hz => Hit.arrivals ?_ hz
  exact ⟨rfl, iter, h, f, l', hi, hf, rfl, by simp [hO.parts], rfl, ⟨l, hc⟩, (hO.arrivals hy).rest⟩

theorem probe_open (hne : hs ≠ []) (hrem : ∀ q, [] ∉ rem q) (fuel size : Nat)
    (hO : Open p hs rem s x) : CollM.Safe p (probe fuel size true) s x (Hit p hs rem) := by
  unfold probe
  refine Safe.bind ((scan_open hne hrem fuel hO).mono fun r s' y hH => Safe.get_bind ?_)
  have hne' : s'.participants ≠ [] := by
    obtain ⟨-, i, h, f, l, -, -, -, hp, -⟩ := hH
    rw [hp, ← List.length_pos, List.length_set, List.length_pos]; exact hne
  simp only [hne', ↓reduceIte]
  exact Safe.pure fun z hz => hH.arrivals hz

/-- The receive after such a probe takes the frame found, and leaves the root open again, one
message on in that peer's stream. -/
theorem receive_open (hrem : ∀ q, [] ∉ rem q) (hidle : ∀ h ∈ hs, h.Idle) {cap : Nat} (hcap : ∀ q, ∀ f ∈ rem q, f.length ≤ cap)
    (buff : Buf) {r : Int × Nat} (hH : Hit p hs rem r s x) :
    CollM.Safe p (receive (some buff) cap) s x fun r' s' y => ∃ q f l, rem q = f :: l ∧
      q ∈ hs.map Handle.peer ∧ r' = ((f.length : Int), some (buff.write 0 f)) ∧
        Open p hs (Function.update rem q l) s' y := by
  obtain ⟨-, i, h, f, l, hi, hf, -, hp, hidx, ⟨l', hc⟩, hrest⟩ := hH
  have hlt := (List.getElem?_eq_some_iff.mp hi).1
  have hh : hs[i] = h := (List.getElem?_eq_some_iff.mp hi).2
  unfold receive receiveRaw
  refine Safe.get_bind ?_
  simp only [show ¬ s.probedIdx < 0 by rw [hidx]; omega, ↓reduceIte, pure_bind, bind_assoc]
  rw [hidx, Int.toNat_ofNat]
  refine Safe.participantsAt_bind (h := { h with probed := (true, f.length) })
    (by simp [hp, List.getElem?_set_self hlt])
    (Safe.receive_bind fun y hy => ⟨fun f' l₂ hc' => ?_, fun m l₂ hc' hm => ?_⟩)
  · obtain ⟨l₃, hl₃⟩ := hy.append (h.peer, p)
    rw [hl₃, hc, List.cons_append, List.cons.injEq, Msg.frame.injEq] at hc'
    obtain ⟨rfl, rfl⟩ := hc'
    have hmem : f ∈ rem h.peer := by rw [hf]; exact List.mem_cons_self _ _
    have hpos : ¬ (f.length : Int) ≤ 0 := by
      have := List.length_pos.mpr (ne_nil_of_head hrem hf); omega
    simp only [List.take_of_length_le (hcap _ f hmem), writePtr, pure_bind, hpos, ↓reduceIte]
    refine Safe.setParticipant_bind (Safe.modify_bind (Safe.pure fun y' hy' =>
      ⟨h.peer, f, l, hf, List.mem_map_of_mem _ (List.mem_iff_getElem?.mpr ⟨_, hi⟩), rfl, Open.arrivals ⟨?_, rfl, fun q hq => ?_⟩ hy'⟩))
    · have hidl := (hidle h (hh ▸ List.getElem_mem hlt)).1
      simp only [hp, List.set_set]
      conv_rhs => rw [← List.set_self_of_getElem? hi]
      rw [← hidl]
    · have hq' := (hy.pending q).trans (hrest q hq)
      by_cases hqq : q = h.peer
      · subst hqq
        rw [hl₃, hc, hf] at hq'
        simpa [Act.apply, Act.edit, hl₃, hc] using hq'
      · have hch : (q, p) ≠ (h.peer, p) := fun e => hqq (Prod.mk.inj e).1
        simpa [Act.apply, Act.edit, hch, Function.update_noteq hqq] using hq'
  · obtain ⟨l₃, hl₃⟩ := hy.append (h.peer, p)
    rw [hl₃, hc, List.cons_append, List.cons.injEq] at hc'
    exact absurd hc'.1.symm (hm f)

theorem mem_of_update_tail {rem : Nat → List Bytes} {q q' : Nat} {f m : Bytes} {l : List Bytes}
    (hf : rem q = f :: l) (hm : m ∈ Function.update rem q l q') : m ∈ rem q' := by
  by_cases h : q' = q
  · subst h; rw [Function.update_same] at hm; rw [hf]; exact List.mem_cons_of_mem _ hm
  · rwa [Function.update_noteq h] at hm

/-- Every run of `n` operations of an open root that returns takes `n` frames, an interleaving of
a prefix of each peer's messages, and leaves the root open on the rest. -/
theorem take_open (hne : hs ≠ []) (hidle : ∀ h ∈ hs, h.Idle) {cap : Nat} (fuel : Nat) (buff : Buf)
    (n : Nat) : ∀ {rem s x}, (∀ q, [] ∉ rem q) → (∀ q, ∀ f ∈ rem q, f.length ≤ cap) →
      Open p hs rem s x → CollM.Safe p (take fuel cap buff n) s x fun out s' y =>
        out.length = n ∧ ∃ pre rem', (∀ q, rem q = pre q ++ rem' q) ∧ Interleaves pre out ∧
          Open p hs rem' s' y := by
  induction n with
  | zero =>
    intro rem s x _ _ hO
    exact Safe.pure fun y hy => ⟨rfl, fun _ => [], rem, fun _ => rfl, .nil fun _ => rfl,
      hO.arrivals hy⟩
  | succ n ih =>
  intro rem s x hrem hcap hO
  rw [take, takeFrames]
  refine Safe.bind ((probe_open hne hrem fuel 0 hO).mono fun r s' y hH => ?_)
  obtain ⟨res, size⟩ := r
  have hgo : ¬ (res ≤ 0 ∨ size = 0) := hH.go hrem
  simp only [hgo, ↓reduceIte, pure_bind]
  refine Safe.bind ((receive_open hrem hidle hcap buff hH).mono fun r' s'' y' hr' => ?_)
  obtain ⟨q, f, l, hf, -, rfl, hO'⟩ := hr'
  have hpos : ¬ (f.length : Int) ≤ 0 := by
    have := List.length_pos.mpr (ne_nil_of_head hrem hf); omega
  simp only [hpos, ↓reduceIte, pure_bind]
  refine Safe.bind ((ih (fun q' h' => hrem q' (mem_of_update_tail hf h'))
    (fun q' m hm => hcap q' m (mem_of_update_tail hf hm)) hO').mono fun out s''' y'' hP => ?_)
  obtain ⟨hlen, pre, rem', hsplit, hI, hO''⟩ := hP
  have hpay : ((some (buff.write 0 f)).getD buff).slice 0 (f.length : Int).toNat = f := by simp
  rw [hpay]
  refine Safe.pure fun z hz => ⟨by simp [hlen], Function.update pre q (f :: pre q), rem', fun q' => ?_,
    .cons (Function.update_same _ _ _) (by simpa using hI), hO''.arrivals hz⟩
  by_cases hqq : q' = q
  · subst hqq; simpa [hf] using hsplit q'
  · simpa [Function.update_noteq hqq] using hsplit q'

/-- A posting peer sends the root its messages and nothing else. -/
theorem post_feeds {q : Nat} {h : Handle} (hp : h.peer = 0) (ms : List Bytes) {s : State}
    (hs : s.participants = [h]) : Proc.Feeds q 0 ((post ms).run s) (ms.map .frame) := by
  induction ms with
  | nil => exact .done
  | cons m ms ih =>
    simp only [post, send, sendEach, StateT.run_bind, StateT.run_get, hs, Proc.pure_eq,
      Proc.done_bind, run_readPtr, StateT.run_lift, Handle.send, Proc.send_bind, Buf.slice_ofBytes, hp]
    refine .send ?_
    simp only [Proc.done_bind, Int.ofNat_nonneg, not_lt.mpr, StateT.run_pure, Proc.pure_eq,
      ↓reduceIte, pure_bind, StateT.run_pure]
    exact ih

theorem mem_of_peers {g : Team} {msgs : Nat → List Bytes} {q : Nat} {m : Bytes}
    (hm : m ∈ if 1 ≤ q ∧ q < g.n then msgs q else []) : m ∈ msgs q := by
  split at hm
  exacts [hm, absurd hm (List.not_mem_nil _)]

theorem openMember_feeds (g : Team) (fuel cap : Nat) (buff : Buf) (n : Nat)
    (msgs : Nat → List Bytes) {q : Nat} (hq : q ≠ 0) :
    Proc.Feeds q 0 ((g.launch (openMember fuel cap buff n msgs)).procs q)
      ((if 1 ≤ q ∧ q < g.n then msgs q else []).map .frame) := by
  simp only [Team.launch, Team.start, Team.procs]
  split
  · rename_i hqn
    simp only [openMember, hq, ↓reduceIte, StateT.run_bind, Proc.bind_assoc,
      show 1 ≤ q ∧ q < g.n from ⟨Nat.one_le_iff_ne_zero.mpr hq, hqn⟩, and_self]
    simpa using (post_feeds (q := q) (h := .fresh 0) rfl (msgs q) (s := g.state q)
      (by simp [Team.state, Team.participants, hq])).bind fun _ => .done
  · exact .crash

theorem open_delivers (g : Team) (hn : 2 ≤ g.n) (msgs : Nat → List Bytes) (hne : ∀ r, [] ∉ msgs r)
    {cap : Nat} (hcap : ∀ r, ∀ m ∈ msgs r, m.length ≤ cap) (fuel n : Nat) (buff : Buf) :
    (g.launch (openMember fuel cap buff n msgs)).Always 0 fun v =>
      v.1.length = n ∧ (∃ pre, (∀ q, pre q <+: if 1 ≤ q ∧ q < g.n then msgs q else []) ∧
        Interleaves pre v.1) ∧
      v.2.participants = (g.state 0).participants ∧ v.2.probedIdx = -1 := by
  intro N hN v hv
  let rem : Nat → List Bytes := fun q => if 1 ≤ q ∧ q < g.n then msgs q else []
  obtain ⟨later, -, hfed⟩ := Net.reach_fed hN fun q hq =>
    openMember_feeds g fuel cap buff n msgs hq
  have hroot : (g.launch (openMember fuel cap buff n msgs)).procs 0 =
      (take fuel cap buff n).run (g.state 0) :=
    (Team.launch_procs g.zero_lt).trans (Proc.bind_pure _)
  rw [hv, hroot] at hfed
  have hO : Open 0 (g.participants 0) rem (g.state 0) (fun _ => [], fun q => (rem q).map .frame) :=
    ⟨rfl, rfl, fun q _ => rfl⟩
  obtain ⟨hlen, pre, rem', hsplit, hI, hO'⟩ := take_open (g.participants_zero_ne_nil hn)
    (fun h hh => g.state_idle 0 hh) fuel buff n
    (fun q h => hne q (mem_of_peers h)) (fun q m hm => hcap q m (mem_of_peers hm))
    hO _ _ hfed
  exact ⟨hlen, ⟨pre, fun q => ⟨rem' q, (hsplit q).symm⟩, hI⟩, hO'.parts, hO'.idx⟩

-- ---------------------------------------------------------------------------
-- A run where the root returns
-- ---------------------------------------------------------------------------

/-- A turn of the scan at a handle whose peer has a message waiting stops there. -/
theorem scan_open_hit (hrem : ∀ q, [] ∉ rem q) {fuel iter size : Nat} {h : Handle} {c : Chans}
    (hO : Open p hs rem s (c, fun _ => [])) (hi : hs[iter]? = some h) (hr : rem h.peer ≠ []) :
    CollM.Returns p (scan true (fuel + 1) iter (-1) size) s c fun _ _ _ => True := by
  obtain ⟨f, l, hf⟩ := List.exists_cons_of_ne_nil hr
  have hq : h.peer ∈ hs.map Handle.peer := List.mem_map_of_mem _ (List.mem_iff_getElem?.mpr ⟨_, hi⟩)
  have hc : c (h.peer, p) = .frame f :: l.map .frame := by simpa [hf] using hO.rest _ hq
  have hne : s.participants ≠ [] := by rw [hO.parts]; rintro rfl; simp at hi
  have hfne : f ≠ [] := ne_nil_of_head hrem hf
  rw [scan.eq_2]
  refine Returns.get_bind ?_
  simp only [Int.reduceNeg, ne_eq, true_and, decide_not, Bool.not_not, decide_eq_true_eq, hne,
    not_false_eq_true, ↓reduceIte, pure_bind]
  refine Returns.participantsAt_bind (by rw [hO.parts]; exact hi) ?_
  simp only [probeRaw, Handle.probe, bind_assoc]
  refine Returns.probe_bind hc ?_
  simp only [Msg.reply_frame, pure_bind, sizeofSizeT, Nat.ofNat_pos, true_and, List.length_eq_zero,
    hfne, ↓reduceIte, gt_iff_lt]
  exact Returns.modify_bind (Returns.setParticipant_bind
    (Returns.of_done (run_advance_of_ne (by decide) _ _ _ _ _) trivial))

/-- A turn of the scan at a handle whose peer has nothing waiting moves the cursor on by one,
cyclically, and changes neither the handles nor the probed index. -/
theorem scan_open_miss {fuel iter size : Nat} {h : Handle} {c : Chans}
    {Q : Int × Nat → State → Chans → Prop} (hO : Open p hs rem s (c, fun _ => []))
    (hi : hs[iter]? = some h) (hr : rem h.peer = [])
    (hnext : ∀ s' : State, Open p hs rem s' (c, fun _ => []) →
      CollM.Returns p (scan true fuel ((iter + 1) % hs.length) (-1) size) s' c Q) :
    CollM.Returns p (scan true (fuel + 1) iter (-1) size) s c Q := by
  have hq : h.peer ∈ hs.map Handle.peer := List.mem_map_of_mem _ (List.mem_iff_getElem?.mpr ⟨_, hi⟩)
  have hc : c (h.peer, p) = [] := by simpa [hr] using hO.rest _ hq
  have hlt := (List.getElem?_eq_some_iff.mp hi).1
  have hne : s.participants ≠ [] := by rw [hO.parts]; rintro rfl; simp at hi
  rw [scan.eq_2]
  refine Returns.get_bind ?_
  simp only [Int.reduceNeg, ne_eq, true_and, decide_not, Bool.not_not, decide_eq_true_eq, hne,
    not_false_eq_true, ↓reduceIte, pure_bind]
  refine Returns.participantsAt_bind (by rw [hO.parts]; exact hi) ?_
  simp only [probeRaw, Handle.probe, bind_assoc]
  refine Returns.probe_empty_bind hc ?_
  simp only [setErrno, bind_assoc, pure_bind, Int.reduceLT, false_and, ↓reduceIte]
  have hO' : Open p hs rem { s with errno := EWOULDBLOCK } (c, fun _ => []) :=
    ⟨hO.parts, hO.idx, hO.rest⟩
  refine Returns.modify_bind ?_
  unfold advance
  refine Returns.get_bind ?_
  split <;> rename_i he <;> simp only [hO.parts] at he
  · simpa [he] using hnext _ hO'
  · simpa [Nat.mod_eq_of_lt (show iter + 1 < hs.length by omega)] using hnext _ hO'

/-- With everything arrived, the scan of an open root stops within `d` more turns when the handle
`d` places on from the cursor has a message waiting. -/
theorem scan_open_returns (hrem : ∀ q, [] ∉ rem q) (size d : Nat) :
    ∀ {fuel iter s c}, d < fuel → iter < hs.length → Open p hs rem s (c, fun _ => []) →
      (∃ h, hs[(iter + d) % hs.length]? = some h ∧ rem h.peer ≠ []) →
      CollM.Returns p (scan true fuel iter (-1) size) s c fun _ _ _ => True := by
  induction d with
  | zero =>
    intro fuel iter s c hd hiter hO ⟨h, hi, hr⟩
    obtain ⟨fuel, rfl⟩ := Nat.exists_eq_add_of_lt hd
    rw [Nat.add_zero, Nat.mod_eq_of_lt hiter] at hi
    exact scan_open_hit hrem hO hi hr
  | succ d ih =>
    intro fuel iter s c hd hiter hO hex
    obtain ⟨fuel, rfl⟩ := Nat.exists_eq_add_of_lt hd
    obtain ⟨h, hi⟩ : ∃ h, hs[iter]? = some h := ⟨_, List.getElem?_eq_getElem hiter⟩
    by_cases hr : rem h.peer = []
    case neg => exact scan_open_hit hrem hO hi hr
    refine scan_open_miss hO hi hr fun s' hO' => ih (by omega) (Nat.mod_lt _ (by omega)) hO' ?_
    rwa [Nat.mod_add_mod, Nat.add_right_comm]

theorem probe_open_returns (hrem : ∀ q, [] ∉ rem q) {fuel : Nat} (hfuel : hs.length ≤ fuel)
    (size : Nat) {c : Chans} (hO : Open p hs rem s (c, fun _ => [])) (hex : ∃ h ∈ hs, rem h.peer ≠ []) :
    CollM.Returns p (probe fuel size true) s c fun r s' c' => Hit p hs rem r s' (c', fun _ => []) := by
  obtain ⟨h, hh, hr⟩ := hex
  obtain ⟨i, hi⟩ := List.mem_iff_getElem?.mp hh
  have hlt := (List.getElem?_eq_some_iff.mp hi).1
  have hne : hs ≠ [] := List.ne_nil_of_mem hh
  unfold probe
  refine Returns.bind (((scan_open_returns hrem size i (by omega) (List.length_pos.mpr hne) hO
    ⟨h, by rwa [Nat.zero_add, Nat.mod_eq_of_lt hlt], hr⟩).and_safe
    (scan_open hne hrem fuel hO)).mono fun r s' c' hH => Returns.get_bind ?_)
  replace hH := hH.2
  have hne' : s'.participants ≠ [] := by
    obtain ⟨-, i, h, f, l, -, -, -, hp, -⟩ := hH
    rw [hp, ← List.length_pos, List.length_set, List.length_pos]; exact hne
  simp only [hne', ↓reduceIte]
  exact Returns.pure hH

theorem receive_open_returns (cap : Nat) (buff : Buf) {r : Int × Nat} {c : Chans}
    (hH : Hit p hs rem r s (c, fun _ => [])) :
    CollM.Returns p (receive (some buff) cap) s c fun _ _ _ => True := by
  obtain ⟨-, i, h, f, l, hi, -, -, hp, hidx, ⟨l', hc⟩, -⟩ := hH
  have hlt := (List.getElem?_eq_some_iff.mp hi).1
  unfold receive receiveRaw
  refine Returns.get_bind ?_
  simp only [show ¬ s.probedIdx < 0 by rw [hidx]; omega, ↓reduceIte, pure_bind, bind_assoc]
  rw [hidx, Int.toNat_ofNat]
  refine Returns.participantsAt_bind (h := { h with probed := (true, f.length) })
    (by simp [hp, List.getElem?_set_self hlt]) (Returns.receive_bind hc ?_)
  simp only [writePtr, pure_bind]
  split
  · exact Returns.pure trivial
  · exact Returns.setParticipant_bind (Returns.modify_bind (Returns.pure trivial))

/-- Taking a message of one peer of a duplicate-free list leaves one message fewer in all. -/
theorem sum_update_tail {L : List Nat} (hnd : L.Nodup) {q : Nat} (hq : q ∈ L) {f : Bytes}
    {l : List Bytes} (hf : rem q = f :: l) :
    (L.map fun q' => (Function.update rem q l q').length).sum + 1 =
      (L.map fun q' => (rem q').length).sum := by
  induction L with
  | nil => exact absurd hq (List.not_mem_nil _)
  | cons a L ih =>
    rw [List.nodup_cons] at hnd
    by_cases ha : a = q
    · subst ha
      have hL : (L.map fun q' => (Function.update rem a l q').length) = L.map fun q' => (rem q').length :=
        List.map_congr_left fun q' hq' => by
          rw [Function.update_noteq (by rintro rfl; exact hnd.1 hq')]
      simp only [List.map_cons, List.sum_cons, Function.update_same, hL, hf, List.length_cons]
      omega
    · have := ih hnd.2 ((List.mem_cons.mp hq).resolve_left (Ne.symm ha))
      simp only [List.map_cons, List.sum_cons, Function.update_noteq ha]
      omega

/-- With everything arrived, an open root whose peers have at least `n` messages left between
them can make its next `n` operations. -/
theorem take_open_returns (hne : hs ≠ []) (hidle : ∀ h ∈ hs, h.Idle) (hnd : (hs.map Handle.peer).Nodup)
    {cap fuel : Nat} (hfuel : hs.length ≤ fuel) (buff : Buf) (n : Nat) :
    ∀ {rem s c}, (∀ q, [] ∉ rem q) → (∀ q, ∀ f ∈ rem q, f.length ≤ cap) →
      Open p hs rem s (c, fun _ => []) → n ≤ ((hs.map Handle.peer).map fun q => (rem q).length).sum →
      CollM.Returns p (take fuel cap buff n) s c fun _ _ _ => True := by
  induction n with
  | zero => intro _ _ _ _ _ _ _; exact Returns.pure trivial
  | succ n ih =>
  intro rem s c hrem hcap hO hn
  have hex : ∃ h ∈ hs, rem h.peer ≠ [] := by
    by_contra hall
    push_neg at hall
    have : ((hs.map Handle.peer).map fun q => (rem q).length).sum = 0 :=
      List.sum_eq_zero fun x hx => by
        obtain ⟨q, hq, rfl⟩ := List.mem_map.mp hx
        obtain ⟨h, hh, rfl⟩ := List.mem_map.mp hq
        simp [hall h hh]
    omega
  rw [take, takeFrames]
  refine Returns.bind (((probe_open_returns hrem hfuel 0 hO hex).and_safe
    (probe_open hne hrem fuel 0 hO)).mono fun r s' c' hH => ?_)
  replace hH := hH.1
  obtain ⟨res, size⟩ := r
  have hgo : ¬ (res ≤ 0 ∨ size = 0) := hH.go hrem
  simp only [hgo, ↓reduceIte, pure_bind]
  refine Returns.bind (((receive_open_returns cap buff hH).and_safe
    (receive_open hrem hidle hcap buff hH)).mono fun r' s'' c'' hr' => ?_)
  obtain ⟨q, f, l, hf, hq, rfl, hO'⟩ := hr'.2
  have hpos : ¬ (f.length : Int) ≤ 0 := by
    have := List.length_pos.mpr (ne_nil_of_head hrem hf); omega
  simp only [hpos, ↓reduceIte, pure_bind]
  have hsum := sum_update_tail hnd hq hf
  exact Returns.bind ((ih (fun q' h' => hrem q' (mem_of_update_tail hf h'))
    (fun q' m hm => hcap q' m (mem_of_update_tail hf hm)) hO' (by omega)).mono
    fun _ _ _ _ => Returns.pure trivial)

/-- A posting peer runs to its end, appending its messages to its connection to the root. -/
theorem post_run {q : Nat} {h : Handle} (hp : h.peer = 0) (ms : List Bytes) {s : State}
    (hs : s.participants = [h]) (c : Chans) :
    ∃ s', Proc.Run q ((post ms).run s, c) (.done ((), s'), Chans.append c (q, 0) (ms.map .frame)) := by
  induction ms generalizing c with
  | nil => exact ⟨s, by simpa using Proc.Run.refl⟩
  | cons m ms ih =>
    simp only [post, send, sendEach, StateT.run_bind, StateT.run_get, hs, Proc.pure_eq,
      Proc.done_bind, run_readPtr, StateT.run_lift, Handle.send, Proc.send_bind, Buf.slice_ofBytes, hp]
    obtain ⟨s', hr⟩ := ih ((Act.push (q, 0) (.frame m)).apply c)
    refine ⟨s', Proc.Run.head (Proc.next_send _ _ _ _ _) ?_⟩
    simp only [Proc.done_bind, Int.ofNat_nonneg, not_lt.mpr, StateT.run_pure, Proc.pure_eq,
      ↓reduceIte, pure_bind, StateT.run_pure]
    simpa [Chans.append_push] using hr

/-- A fan-in group that stays open can run to the root's return, given enough messages and scan
turns. -/
theorem open_returns (g : Team) (hn : 2 ≤ g.n) (msgs : Nat → List Bytes) (hne : ∀ r, [] ∉ msgs r)
    {cap : Nat} (hcap : ∀ r, ∀ m ∈ msgs r, m.length ≤ cap) {fuel : Nat} (hfuel : g.n ≤ fuel)
    (buff : Buf) {n : Nat}
    (hk : n ≤ (((List.range (g.n - 1)).map (· + 1)).map fun q => (msgs q).length).sum) :
    ∃ N, Net.Reach (g.launch (openMember fuel cap buff n msgs)) N ∧ ∃ v, N.procs 0 = .done v := by
  let rem : Nat → List Bytes := fun q => if 1 ≤ q ∧ q < g.n then msgs q else []
  obtain ⟨N, hN, h0, hc, -⟩ := g.peers_run rfl (fun q => (msgs q).map .frame) (fun r hr hrn c => by
    obtain ⟨s', hrun⟩ := post_run (q := r) rfl (msgs r)
      (by simp [Team.participants, hr.ne'] : (g.state r).participants = [.fresh 0]) c
    have hp : (g.launch (openMember fuel cap buff n msgs)).procs r = ((post (msgs r)).run (g.state r) >>=
        fun x : Unit × State => ((pure [] : CollM (List Bytes)).run x.2)) >>= .done := by
      rw [Team.launch_procs hrn]; simp [openMember, hr.ne']
    exact ⟨_, hp ▸ (Proc.Run.bind _ hrun).bind _⟩) (g.n - 1) (by omega)
  have hroot : N.procs 0 = (take fuel cap buff n).run (g.state 0) :=
    h0.trans ((Team.launch_procs g.zero_lt).trans (Proc.bind_pure _))
  have hO : Open 0 (g.participants 0) rem (g.state 0) (N.chans, fun _ => []) := by
    refine ⟨rfl, rfl, fun q hq => ?_⟩
    rw [Team.peers_zero, Team.mem_peers] at hq
    simp only [hc, Chans.arrived, rem, hq, show q < g.n - 1 + 1 by omega, and_self, ↓reduceIte,
      List.append_nil, true_and]
  have hsum : ((g.participants 0).map Handle.peer).map (fun q => (rem q).length) =
      ((List.range (g.n - 1)).map (· + 1)).map fun q => (msgs q).length := by
    rw [Team.peers_zero]
    exact List.map_congr_left fun q hq => by simp [rem, (Team.mem_peers g).mp hq]
  obtain ⟨a, s', c', hr, -⟩ := take_open_returns (p := 0)
    (g.participants_zero_ne_nil hn) (fun h hh => g.state_idle 0 hh)
    (by rw [Team.peers_zero]; exact (List.nodup_range _).map fun a b h => by simpa using h)
    (show (g.participants 0).length ≤ fuel by simp [Team.participants]; omega) buff n
    (fun q h => hne q (mem_of_peers h)) (fun q m hm => hcap q m (mem_of_peers hm))
    hO (hsum ▸ hk)
  have hrun : Proc.Run 0 (N.procs 0, N.chans) (.done (a, s'), c') := by rw [hroot]; exact hr
  exact ⟨_, hN.trans (Net.reach_of_run hrun), (a, s'), by simp⟩

end FanInGeneric

namespace FanOutGeneric

variable {p : Nat} {c : Chans}

/-- Modelled from the spec (§4.9): a fan-out peer's next `n` operations, each a
`probe(size, true)` followed by a `receive(buff, cap)`: the payloads received, in order. -/
def take (cap : Nat) (buff : Buf) : Nat → CollM (List Bytes) :=
  takeFrames (probe 0 true) (receive (some buff) cap) buff (pure [])

/-- The callers of a fan-out group that stays open: the root hands out `msgs` and receives
nothing; every other rank `r` makes its next `ks r` operations. -/
def openMember (cap : Nat) (buff : Buf) (ks : Nat → Nat) (msgs : List Bytes) (r : Nat) :
    CollM (List Bytes) :=
  if r = 0 then do let _ ← handOut msgs; return [] else take cap buff (ks r)

theorem take_blocking (cap : Nat) (buff : Buf) (n : Nat) : CollM.Blocking (take cap buff n) :=
  takeFrames_blocking (probe_blocking 0) (receive_blocking _ _) (Blocking.pure _) n

theorem openMember_blocking (cap : Nat) (buff : Buf) (ks : Nat → Nat) (msgs : List Bytes)
    (r : Nat) : CollM.Blocking (openMember cap buff ks msgs r) :=
  .ite (.bind (handOut_blocking msgs) fun _ => .pure _) (take_blocking cap buff (ks r))

/-- A peer whose connection starts with the non-empty messages `ms` of at most `cap` bytes each
takes the first `n` of them, in order, and ends with its handle as it was. -/
theorem take_returns (buff : Buf) (ms : List Bytes) (hne : [] ∉ ms) {cap : Nat}
    (hcap : ∀ m ∈ ms, m.length ≤ cap) {n : Nat} (hn : n ≤ ms.length) {l : List Msg}
    (hc : c (0, p) = ms.map .frame ++ l) :
    Returns p (take cap buff n) { participants := [.fresh 0] } c
      fun out s _ => out = ms.take n ∧ s = { participants := [.fresh 0] } := by
  induction ms generalizing n c with
  | nil => obtain rfl : n = 0 := Nat.le_zero.mp hn; exact Returns.pure ⟨rfl, rfl⟩
  | cons m ms ih =>
    cases n with
    | zero => exact Returns.pure ⟨rfl, rfl⟩
    | succ n =>
    have hm : m ≠ [] := fun h => hne (h ▸ List.mem_cons_self _ _)
    rw [take, takeFrames]
    refine Returns.bind (probe_frame hm hc 0 ?_)
    have hgo : ¬ ((sizeofSizeT : Int) ≤ 0 ∨ m.length = 0) := by simp [sizeofSizeT, hm]
    simp only [hgo, ↓reduceIte, pure_bind]
    refine Returns.bind (receive_frame hc cap buff ?_)
    rw [List.take_of_length_le (hcap m (List.mem_cons_self _ _))]
    have hpos : ¬ (m.length : Int) ≤ 0 := by simp [hm]
    simp only [hpos, ↓reduceIte, pure_bind]
    refine Returns.bind ((ih (fun h => hne (List.mem_cons_of_mem _ h))
      (fun m' h => hcap m' (List.mem_cons_of_mem _ h)) (by simpa using hn) ?_).mono
      fun out s _ h => ?_)
    · simp [Act.apply, Act.edit, hc]
    · obtain ⟨rfl, rfl⟩ := h
      exact Returns.pure ⟨by simp, rfl⟩

/-- In every interleaving of a fan-out group that stays open, peer `r` receives the first `ks r`
messages of its share, and every member ends with its handles as they were. -/
theorem open_deals (g : Team) (hn : 2 ≤ g.n) (msgs : List Bytes) (hne : [] ∉ msgs) {cap : Nat}
    (hcap : ∀ m ∈ msgs, m.length ≤ cap) (buff : Buf) (ks : Nat → Nat)
    (hks : ∀ r, 0 < r → r < g.n → ks r ≤ (deal msgs (g.n - 1) (r - 1)).length) :
    (∀ r, 0 < r → r < g.n → (g.launch (openMember cap buff ks msgs)).Determined r
      ((deal msgs (g.n - 1) (r - 1)).take (ks r), g.state r)) ∧
    (g.launch (openMember cap buff ks msgs)).Determined 0
      ([], { g.state 0 with current := msgs.length % (g.n - 1) }) := by
  have hb := openMember_blocking cap buff ks msgs
  obtain ⟨a, c₁, h₀, hc₁⟩ := handOut_runs g hn msgs
  have hroot : Runs 0 (openMember cap buff ks msgs 0) _ _ [] _ _ := h₀.bind (Runs.pure' _ _ _)
  refine ⟨fun r hr hrn => ?_, Net.determined_of_reach (Team.launch_allBlocking hb)
    (Team.reach_runs (Team.launch_procs g.zero_lt) hroot)
    (Function.update_same 0 _ (g.launch (openMember cap buff ks msgs)).procs)⟩
  have hsub := deal_sublist msgs (g.n - 1) (r - 1)
  have hst : g.state r = { participants := [.fresh 0] } := by
    simp [Team.state, Team.participants, hr.ne']
  obtain ⟨out, s, c₂, hrun, rfl, hs⟩ := take_returns buff _ (fun h => hne (hsub.subset h))
    (fun m hm => hcap m (hsub.subset hm)) (hks r hr hrn) ((hc₁ r hr hrn).trans (List.append_nil _).symm)
  rw [← hst] at hs
  subst hs
  have hpeer : Runs r (openMember cap buff ks msgs r) (g.state r) c₁
      ((deal msgs (g.n - 1) (r - 1)).take (ks r)) (g.state r) c₂ := by
    simpa only [openMember, hr.ne', ↓reduceIte, hst] using hrun
  exact Team.determined_after_root hb hr hrn hroot hpeer

end FanOutGeneric

-- ---------------------------------------------------------------------------
-- No data frame is read as an end of stream
-- ---------------------------------------------------------------------------

/-- Rounds each of which runs from its start to its finish with positive counts match, and keep
every handle call after call. -/
theorem Team.keeps_rounds {g : Team} {code : (Nat → Call) → Nat → CollM (Int × Option Buf)}
    (hb : ∀ c r, CollM.Blocking (code c r)) {cs : List (Nat → Call)}
    (hround : ∀ c ∈ cs, ∃ v : Nat → Int × Option Buf, (∀ r < g.n, 0 < (v r).1) ∧
      ∀ {β : Type} (K : Nat → (Int × Option Buf) × State → Proc β),
        Net.Reach (g.start (code c) K) (g.finish v K)) :
    Team.RoundsMatch g code cs ∧ ∀ c ∈ cs, g.KeepsHandles (code c) :=
  ⟨Team.roundsMatch hb fun c hc => (hround c hc).imp fun _ h => h.2,
    fun c hc => let ⟨_, hpos, hv⟩ := hround c hc; Team.keepsHandles_of_round (hb c) (hv _) hpos⟩
