-- SUMMARY: A fan-in root drains its group while the peers' messages arrive at any pace: what it receives interleaves every peer's stream, each in its order, each frame once; with everything arrived, the drain returns; the first handle's waiting frames always come first.
import MtclCollectives.Network.Feed
import MtclCollectives.Reader
import MtclCollectives.Collectives.Streams
import Mathlib.Algebra.Order.BigOperators.Group.List

/-!
# Fan-in delivery

`Stands` ties a draining fan-in root to its peers' streams while their messages arrive at any
pace: every run of the drain that returns delivers an interleaving of the streams, each in its
order, each frame once, and once everything has arrived the drain returns.
-/

open CollM

/-- `out` interleaves the lists `xs q`: it holds all their elements, each list's in its order,
each once. -/
inductive Interleaves {α : Type} : (Nat → List α) → List α → Prop
  | nil {xs : Nat → List α} : (∀ q, xs q = []) → Interleaves xs []
  | cons {xs : Nat → List α} {q : Nat} {a : α} {l out : List α} :
      xs q = a :: l → Interleaves (Function.update xs q l) out → Interleaves xs (a :: out)

theorem List.map_eraseIdx {α β : Type} (f : α → β) (l : List α) (i : Nat) :
    (l.eraseIdx i).map f = (l.map f).eraseIdx i := by
  simp [List.eraseIdx_eq_take_drop_succ, List.map_take, List.map_drop]

theorem List.length_pos_or_nil {α : Type} (l : List α) : 0 < l.length ∨ l = [] := by
  cases l <;> simp

namespace FanInGeneric

variable {p : Nat} {σ : Nat → PeerStream} {qs : List Nat} {k : Nat → Nat} {s s' : State}
  {x y : Feed}

/-- What the root has still to take from peer `q` once it took the first `k q` frames of each
peer's stream. -/
def remaining (σ : Nat → PeerStream) (qs : List Nat) (k : Nat → Nat) (q : Nat) : List Bytes :=
  if q ∈ qs then (σ q).frames.drop (k q) else []

/-- The fan-in root `p`, whose handles were made for the peers `qs`, has taken the first `k q`
frames of each peer's stream, and stands in state `s` with the connections and arrivals `x`. -/
structure Stands (p : Nat) (σ : Nat → PeerStream) (qs : List Nat) (k : Nat → Nat) (s : State)
    (x : Feed) : Prop where
  /-- The handles left belong to the peers, in their order. -/
  sub : (s.participants.map Handle.peer).Sublist qs
  le : ∀ q ∈ qs, k q ≤ (σ q).frames.length
  /-- What is on the connection followed by what has not arrived is the rest of the stream. -/
  rest : ∀ q ∈ qs, x.1 (q, p) ++ x.2 q = (σ q).msgs.drop (k q)
  /-- A peer whose handle is gone has had all its frames taken. -/
  gone : ∀ q ∈ qs, q ∉ s.participants.map Handle.peer → k q = (σ q).frames.length

/-- The scan stopped at the handle `participants[probed_idx]`, whose peer's next frame is on the
connection, and reported its size. -/
def Found (p : Nat) (σ : Nat → PeerStream) (k : Nat → Nat) (s : State) (c : Chans)
    (r : Int × Nat) : Prop :=
  r.1 = sizeofSizeT ∧ ∃ h f, 0 ≤ s.probedIdx ∧ s.participants[s.probedIdx.toNat]? = some h ∧
    (σ h.peer).frames[k h.peer]? = some f ∧ c (h.peer, p) ≠ [] ∧ r.2 = f.length

/-- Where a scan leaves the root: standing as before, with no handle left or a frame found. -/
def Scanned (p : Nat) (σ : Nat → PeerStream) (qs : List Nat) (k : Nat → Nat) (r : Int × Nat)
    (s : State) (y : Feed) : Prop :=
  Stands p σ qs k s y ∧ (s.participants = [] ∨ Found p σ k s y.1 r)

-- ---------------------------------------------------------------------------
-- Standing in the streams
-- ---------------------------------------------------------------------------

theorem Arrive.ne_nil {ch : Nat × Nat} (ha : Arrive p x y) (hc : x.1 ch ≠ []) : y.1 ch ≠ [] := by
  obtain ⟨m, l, hc⟩ := List.exists_cons_of_ne_nil hc
  obtain ⟨l', hl⟩ := ha.head hc
  simp [hl]

theorem Stands.arrive (hS : Stands p σ qs k s x) (ha : Arrive p x y) : Stands p σ qs k s y := by
  obtain ⟨hl⟩ := ha
  rename_i c later q m l
  refine ⟨hS.sub, hS.le, fun q' hq' => ?_, hS.gone⟩
  have hr := hS.rest q' hq'
  by_cases hqq : q' = q
  · subst hqq
    simpa [Act.apply, Act.edit, hl] using hr
  · have hch : (q', p) ≠ (q, p) := fun h => hqq (Prod.mk.inj h).1
    simpa [Act.apply, Act.edit, hch, Function.update_noteq hqq] using hr

theorem Stands.arrivals (hS : Stands p σ qs k s x) (ha : Arrivals p x y) : Stands p σ qs k s y := by
  induction ha with
  | refl => exact hS
  | tail _ h ih => exact ih.arrive h

theorem Found.arrivals {r : Int × Nat} (hF : Found p σ k s x.1 r) (ha : Arrivals p x y) :
    Found p σ k s y.1 r := by
  induction ha with
  | refl => exact hF
  | tail _ h ih =>
    obtain ⟨hr, H, f, h0, hi, hf, hc, hs⟩ := ih
    exact ⟨hr, H, f, h0, hi, hf, Arrive.ne_nil h hc, hs⟩

/-- The root's own sends go to its peers, and leave what it reads alone. -/
theorem Stands.push_out (hS : Stands p σ qs k s x) (hp : p ∉ qs) (q : Nat) (m : Msg) :
    Stands p σ qs k s ((Act.push (p, q) m).apply x.1, x.2) := by
  refine ⟨hS.sub, hS.le, fun q' hq' => ?_, hS.gone⟩
  have hch : (q', p) ≠ (p, q) := fun h => hp ((Prod.mk.inj h).1 ▸ hq')
  simpa [Act.apply, Act.edit, hch] using hS.rest q' hq'

/-- Only the peers of the handles matter. -/
theorem Stands.of_peers (hS : Stands p σ qs k s x)
    (he : s'.participants.map Handle.peer = s.participants.map Handle.peer) :
    Stands p σ qs k s' x :=
  ⟨he ▸ hS.sub, hS.le, hS.rest, he ▸ hS.gone⟩

theorem Stands.peer_mem (hS : Stands p σ qs k s x) {i : Nat} {h : Handle}
    (hi : s.participants[i]? = some h) : h.peer ∈ qs :=
  hS.sub.subset (List.mem_map_of_mem _ (List.mem_iff_getElem?.mpr ⟨i, hi⟩))

/-- What stands first on a peer's connection is its next frame, or its end of stream once all
its frames are taken. -/
theorem Stands.head (hS : Stands p σ qs k s x) {q : Nat} (hq : q ∈ qs) (heos : (σ q).fin = .eos)
    {m : Msg} {l : List Msg} (hc : x.1 (q, p) = m :: l) :
    (∃ f, (σ q).frames[k q]? = some f ∧ m = .frame f) ∨
      (k q = (σ q).frames.length ∧ m = .frame []) := by
  have hr := hS.rest q hq
  rw [hc, List.cons_append] at hr
  rcases Nat.lt_or_ge (k q) (σ q).frames.length with hk | hk
  · have hf := List.getElem?_eq_getElem hk
    rw [PeerStream.msgs_drop_of_getElem? hf] at hr
    exact .inl ⟨_, hf, (List.cons.inj hr).1⟩
  · have hk := le_antisymm (hS.le q hq) hk
    rw [hk, PeerStream.msgs_drop_length, heos] at hr
    exact .inr ⟨hk, (List.cons.inj hr).1⟩

/-- Dropping a handle whose end of stream stands first keeps the root standing. -/
theorem Stands.erase (hS : Stands p σ qs k s x) (heos : ∀ q ∈ qs, (σ q).fin = .eos) {i : Nat}
    {h : Handle} {l : List Msg} (hi : s.participants[i]? = some h)
    (hc : x.1 (h.peer, p) = .frame [] :: l) :
    Stands p σ qs k { s with participants := s.participants.eraseIdx i } x := by
  have hq := hS.peer_mem hi
  have hk : k h.peer = (σ h.peer).frames.length := by
    rcases hS.head hq (heos _ hq) hc with ⟨f, hf, hm⟩ | ⟨hk, -⟩
    · cases hm; exact absurd (List.mem_iff_getElem?.mpr ⟨_, hf⟩) (σ h.peer).nonempty
    · exact hk
  refine ⟨?_, hS.le, hS.rest, fun q hq' hn => ?_⟩
  · rw [List.map_eraseIdx]; exact (List.eraseIdx_sublist _ _).trans hS.sub
  · by_cases hqq : q = h.peer
    · exact hqq ▸ hk
    refine hS.gone q hq' fun hm => hn ?_
    obtain ⟨j, hj⟩ := List.mem_iff_getElem?.mp hm
    rw [List.map_eraseIdx, List.mem_eraseIdx_iff_getElem?]
    refine ⟨j, fun hji => hqq ?_, hj⟩
    subst hji
    simpa [hi] using hj.symm

/-- Taking the next frame of a peer moves the root one frame on in that peer's stream. -/
theorem Stands.take (hS : Stands p σ qs k s x) {q : Nat} (hq : q ∈ qs) {f : Bytes}
    {l : List Msg} (hf : (σ q).frames[k q]? = some f) (hc : x.1 (q, p) = .frame f :: l)
    (hm : q ∈ s.participants.map Handle.peer)
    (he : s'.participants.map Handle.peer = s.participants.map Handle.peer) :
    Stands p σ qs (Function.update k q (k q + 1)) s' ((Act.pop (q, p)).apply x.1, x.2) := by
  have hlt := (List.getElem?_eq_some_iff.mp hf).1
  refine ⟨he ▸ hS.sub, fun q' hq' => ?_, fun q' hq' => ?_, fun q' hq' hn => ?_⟩
  · by_cases hqq : q' = q
    · subst hqq; simpa using hlt
    · simpa [Function.update_noteq hqq] using hS.le q' hq'
  · by_cases hqq : q' = q
    · subst hqq
      have hr := hS.rest q' hq
      rw [hc, PeerStream.msgs_drop_of_getElem? hf, List.cons_append, List.cons.injEq] at hr
      simpa [Act.apply, Act.edit, hc] using hr.2
    · have hch : (q', p) ≠ (q, p) := fun h => hqq (Prod.mk.inj h).1
      simpa [Act.apply, Act.edit, hch, Function.update_noteq hqq] using hS.rest q' hq'
  · have hqq : q' ≠ q := fun h => hn (h ▸ he ▸ hm)
    simpa [Function.update_noteq hqq] using hS.gone q' hq' (he ▸ hn)

/-- With no handle left, nothing remains to be taken. -/
theorem Stands.remaining_nil (hS : Stands p σ qs k s x) (he : s.participants = []) (q : Nat) :
    remaining σ qs k q = [] := by
  unfold remaining
  split
  · rename_i hq
    simp [hS.gone q hq (by simp [he])]
  · rfl

theorem remaining_take {q : Nat} (hq : q ∈ qs) {f : Bytes} (hf : (σ q).frames[k q]? = some f) :
    remaining σ qs k q = f :: remaining σ qs (Function.update k q (k q + 1)) q := by
  simp [remaining, hq, List.drop_eq_getElem_cons (List.getElem?_eq_some_iff.mp hf).1,
    (List.getElem?_eq_some_iff.mp hf).2]

theorem update_remaining (q : Nat) :
    Function.update (remaining σ qs k) q (remaining σ qs (Function.update k q (k q + 1)) q) =
      remaining σ qs (Function.update k q (k q + 1)) := by
  funext q'
  by_cases hqq : q' = q
  · subst hqq; simp
  · simp [Function.update_noteq hqq, remaining]

-- ---------------------------------------------------------------------------
-- Every run that returns
-- ---------------------------------------------------------------------------

theorem run_scan_stop {res : Int} (hs : ¬ (res = -1 ∧ s.participants ≠ [])) (blocking : Bool)
    (fuel iter size : Nat) : (scan blocking fuel iter res size).run s = .done ((res, size), s) := by
  have hs : ¬ res = -1 ∨ s.participants = [] := by tauto
  cases fuel <;> simp only [scan, Int.reduceNeg, ne_eq, Bool.decide_and, decide_not, Bool.not_and,
    Bool.not_not, Bool.or_eq_true, Bool.not_eq_eq_eq_not, Bool.not_true, decide_eq_false_iff_not,
    decide_eq_true_eq, pure_bind, StateT.run_bind, StateT.run_get, Proc.pure_eq, Proc.done_bind, hs,
    ↓reduceIte, StateT.run_pure]

theorem run_scan_zero (hne : s.participants ≠ []) (blocking : Bool) (iter size : Nat) :
    (scan blocking 0 iter (-1) size).run s = .crash := by
  simp [scan, hne]

theorem advance_safe {kk : Nat → Int → Nat → CollM (Int × Nat)} {iter : Nat} {res : Int} {size : Nat}
    {Q : Int × Nat → State → Feed → Prop} (h : ∀ j, CollM.Safe p (kk j res size) s x Q) :
    CollM.Safe p (advance true kk iter res size) s x Q := by
  unfold advance
  simp only [CollM.Safe, StateT.run_bind, StateT.run_get, Proc.pure_eq, Proc.done_bind]
  split
  · exact h 0
  · exact h (iter + 1)

theorem map_peer_set {l : List Handle} {i : Nat} {h h' : Handle} (hi : l[i]? = some h)
    (hp : h'.peer = h.peer) : (l.set i h').map Handle.peer = l.map Handle.peer := by
  apply List.ext_getElem?
  intro j
  by_cases hij : i = j
  · subst hij
    simp only [List.getElem?_map, List.getElem?_set_self (List.getElem?_eq_some_iff.mp hi).1, hi,
      Option.map_some', hp]
  · simp only [List.getElem?_map, List.getElem?_set_ne hij]

/-- A scan that stops at once leaves the root where it was. -/
theorem scan_stop_safe {iter : Nat} {res : Int} {size fuel : Nat} (hS : Stands p σ qs k s x)
    (hres : res = -1 ∨ Found p σ k s x.1 (res, size)) (hstop : ¬ (res = -1 ∧ s.participants ≠ [])) :
    CollM.Safe p (scan true fuel iter res size) s x (Scanned p σ qs k) := by
  unfold CollM.Safe
  rw [run_scan_stop hstop]
  refine Proc.Safe.done fun y hy => ⟨hS.arrivals hy, ?_⟩
  rcases hres with rfl | hF
  · exact .inl (by tauto)
  · exact .inr (hF.arrivals hy)

theorem scan_safe (heos : ∀ q ∈ qs, (σ q).fin = .eos) (hp : p ∉ qs) (fuel : Nat) :
    ∀ {iter : Nat} {res : Int} {size : Nat} {s : State} {x : Feed}, Stands p σ qs k s x →
      (res = -1 ∨ Found p σ k s x.1 (res, size)) →
      CollM.Safe p (scan true fuel iter res size) s x (Scanned p σ qs k) := by
  induction fuel with
  | zero =>
    intro iter res size s x hS hres
    by_cases hstop : res = -1 ∧ s.participants ≠ []
    · obtain ⟨rfl, hne⟩ := hstop
      unfold CollM.Safe; rw [run_scan_zero hne]; exact Proc.Safe.crash
    · exact scan_stop_safe hS hres hstop
  | succ fuel ih =>
  intro iter res size s x hS hres
  by_cases hstop : res = -1 ∧ s.participants ≠ []
  case neg => exact scan_stop_safe hS hres hstop
  obtain ⟨rfl, hne⟩ := hstop
  rw [scan.eq_2]
  refine Safe.get_bind ?_
  simp only [Int.reduceNeg, ne_eq, true_and, decide_not, Bool.not_not, decide_eq_true_eq, hne,
    not_false_eq_true, decide_True, Bool.not_true, Bool.false_eq_true, ↓reduceIte, pure_bind]
  cases hi : s.participants[iter]? with
  | none => unfold CollM.Safe; rw [StateT.run_bind, run_participantsAt_none hi]; exact Proc.Safe.crash
  | some h =>
  have hq := hS.peer_mem hi
  refine Safe.participantsAt_bind hi ?_
  simp only [probeRaw, Handle.probe, bind_assoc]
  refine Safe.probe_bind fun y hy => ⟨fun _ _ => ?_, fun m l hc => ?_⟩
  · simp only [setErrno, bind_assoc, pure_bind, Int.reduceLT, false_and, ↓reduceIte]
    exact Safe.modify_bind (advance_safe fun j => ih ((hS.arrivals hy).of_peers rfl) (.inl rfl))
  have hSy := hS.arrivals hy
  rcases hSy.head hq (heos _ hq) hc with ⟨f, hf, rfl⟩ | ⟨hk, rfl⟩
  · have hne : f ≠ [] := PeerStream.ne_nil_of_getElem? hf
    simp only [Msg.reply_frame, pure_bind, sizeofSizeT, Nat.ofNat_pos, true_and, gt_iff_lt,
      List.length_eq_zero, hne, ↓reduceIte]
    have hlt := (List.getElem?_eq_some_iff.mp hi).1
    refine Safe.modify_bind (Safe.setParticipant_bind (advance_safe fun j =>
      ih (hSy.of_peers (map_peer_set hi rfl)) (.inr ⟨rfl, { h with probed := (true, f.length) }, f, by simp, ?_, hf, by simp [hc], rfl⟩)))
    simp [List.getElem?_set_self hlt]
  · simp only [Msg.reply_frame, List.length_nil, pure_bind, sizeofSizeT, Nat.ofNat_pos, and_true,
      gt_iff_lt, ↓reduceIte]
    have hS₃ := hSy.erase heos hi hc
    refine Safe.modify_bind (Safe.close_bind fun y' hy' => ⟨Safe.get_bind ?_, Safe.get_bind ?_⟩) <;>
    · split
      · exact ih (by first | exact hS₃.arrivals hy' | exact (hS₃.arrivals hy').push_out hp _ _) (.inl rfl)
      · exact advance_safe fun j => ih (by first | exact hS₃.arrivals hy' | exact (hS₃.arrivals hy').push_out hp _ _) (.inl rfl)

/-- Where `probe(size, true)` leaves the root: standing as before, with the group's end of
stream reported once no handle is left, or a frame found. -/
def Probed (p : Nat) (σ : Nat → PeerStream) (qs : List Nat) (k : Nat → Nat) (r : Int × Nat)
    (s : State) (y : Feed) : Prop :=
  Stands p σ qs k s y ∧ (s.participants = [] ∧ r.2 = 0 ∨ Found p σ k s y.1 r)

theorem probe_safe (heos : ∀ q ∈ qs, (σ q).fin = .eos) (hp : p ∉ qs) (fuel size : Nat)
    (hS : Stands p σ qs k s x) : CollM.Safe p (probe fuel size true) s x (Probed p σ qs k) := by
  unfold probe
  refine Safe.bind ((scan_safe heos hp fuel hS (.inl rfl)).mono fun r s' y hr => ?_)
  obtain ⟨hS', hr⟩ := hr
  refine Safe.get_bind ?_
  split
  · exact Safe.pure fun y' hy' => ⟨hS'.arrivals hy', .inl ⟨by assumption, rfl⟩⟩
  · rcases hr with hr | hF
    · contradiction
    · exact Safe.pure fun y' hy' => ⟨hS'.arrivals hy', .inr (hF.arrivals hy')⟩

/-- Where `receive(buff, cap)` leaves the root: one frame on in the stream of the peer whose
frame the scan found, with that frame in the buffer. -/
def Received (p : Nat) (σ : Nat → PeerStream) (qs : List Nat) (k : Nat → Nat) (buff : Buf)
    (r : Int × Option Buf) (s : State) (y : Feed) : Prop :=
  ∃ q f, q ∈ qs ∧ (σ q).frames[k q]? = some f ∧ r = ((f.length : Int), some (buff.write 0 f)) ∧
    Stands p σ qs (Function.update k q (k q + 1)) s y

theorem receive_safe (heos : ∀ q ∈ qs, (σ q).fin = .eos) {cap : Nat}
    (hcap : ∀ q ∈ qs, ∀ f ∈ (σ q).frames, f.length ≤ cap) (buff : Buf) {r : Int × Nat}
    (hS : Stands p σ qs k s x) (hF : Found p σ k s x.1 r) :
    CollM.Safe p (receive (some buff) cap) s x (Received p σ qs k buff) := by
  obtain ⟨-, h, f, h0, hi, hf, hc, -⟩ := hF
  have hq := hS.peer_mem hi
  unfold receive receiveRaw
  refine Safe.get_bind ?_
  simp only [show ¬ s.probedIdx < 0 from not_lt.mpr h0, ↓reduceIte, pure_bind, bind_assoc]
  refine Safe.participantsAt_bind hi (Safe.receive_bind fun y hy => ⟨fun f' l hc' => ?_, fun m l hc' hm => ?_⟩)
  · have hSy := hS.arrivals hy
    obtain rfl : f = f' := by
      rcases hSy.head hq (heos _ hq) hc' with ⟨f'', hf'', he⟩ | ⟨hk, -⟩
      · rw [hf] at hf''; cases hf''; cases he; rfl
      · exact absurd hk (List.getElem?_eq_some_iff.mp hf).1.ne
    have hpos : ¬ (f.length : Int) ≤ 0 := by
      have := List.length_pos.mpr (PeerStream.ne_nil_of_getElem? hf); omega
    simp only [List.take_of_length_le (hcap _ hq f (List.mem_iff_getElem?.mpr ⟨_, hf⟩)), writePtr,
      pure_bind, hpos, ↓reduceIte]
    refine Safe.setParticipant_bind (Safe.modify_bind (Safe.pure fun y' hy' =>
      ⟨h.peer, f, hq, hf, rfl, ?_⟩))
    exact (hSy.take hq hf hc' (List.mem_map_of_mem _ (List.mem_iff_getElem?.mpr ⟨_, hi⟩))
      (map_peer_set hi (rfl : ({ h with probed := (false, 0) } : Handle).peer = h.peer))).arrivals hy'
  · rcases (hS.arrivals hy).head hq (heos _ hq) hc' with ⟨f'', -, he⟩ | ⟨-, he⟩ <;>
      exact absurd he (hm _)

theorem drain_safe (heos : ∀ q ∈ qs, (σ q).fin = .eos) (hp : p ∉ qs) {cap : Nat}
    (hcap : ∀ q ∈ qs, ∀ f ∈ (σ q).frames, f.length ≤ cap) (fuel : Nat) (buff : Buf) (n : Nat) :
    ∀ {k s x}, Stands p σ qs k s x → CollM.Safe p (drain fuel cap buff n) s x
      fun out s' _ => Interleaves (remaining σ qs k) out ∧ s'.participants = [] := by
  induction n with
  | zero => intro k s x _; exact Safe.crash
  | succ n ih =>
  intro k s x hS
  rw [drain, takeFrames]
  refine Safe.bind ((probe_safe heos hp fuel 0 hS).mono fun r s' y hr => ?_)
  obtain ⟨res, size⟩ := r
  obtain ⟨hS', ⟨hnil, hr0⟩ | hF⟩ := hr
  · simp only at hr0
    simp only [hr0, or_true, ↓reduceIte]
    exact Safe.pure fun y' hy' => ⟨.nil (hS'.remaining_nil hnil), hnil⟩
  · have hgo : ¬ (res ≤ 0 ∨ size = 0) := by
      obtain ⟨hr1, h, f, -, -, hf, -, hr2⟩ := hF
      have := List.length_pos.mpr (PeerStream.ne_nil_of_getElem? hf)
      simp only [sizeofSizeT] at hr1 hr2
      omega
    simp only [hgo, ↓reduceIte, pure_bind]
    refine Safe.bind ((receive_safe heos hcap buff hS' hF).mono fun r' s'' y' hr' => ?_)
    obtain ⟨q, f, hq, hf, rfl, hS''⟩ := hr'
    have hpos : ¬ (f.length : Int) ≤ 0 := by
      have := List.length_pos.mpr (PeerStream.ne_nil_of_getElem? hf); omega
    simp only [hpos, ↓reduceIte, pure_bind]
    refine Safe.bind ((ih hS'').mono fun out s''' y'' hI => ?_)
    have hpay : ((some (buff.write 0 f)).getD buff).slice 0 (f.length : Int).toNat = f := by simp
    rw [hpay]
    refine Safe.pure fun _ _ => ⟨.cons (remaining_take hq hf) ?_, hI.2⟩
    simpa [update_remaining] using hI.1

-- liveness

theorem Stands.chan_ne_nil (hS : Stands p σ qs k s (c, fun _ => [])) {q : Nat} (hq : q ∈ qs) :
    c (q, p) ≠ [] := by
  have hr := hS.rest q hq
  simp only [List.append_nil] at hr
  rw [hr]
  have := hS.le q hq
  simp [PeerStream.msgs]
  omega

theorem advance_returns {kk : Nat → Int → Nat → CollM (Int × Nat)} {iter : Nat} {res : Int}
    {size : Nat} {c : Chans} {Q : Int × Nat → State → Chans → Prop}
    (h : ∀ j, j < s.participants.length → CollM.Returns p (kk j res size) s c Q)
    (hlt : iter < s.participants.length) :
    CollM.Returns p (advance true kk iter res size) s c Q := by
  unfold advance
  refine Returns.get_bind ?_
  split
  · exact h 0 (by omega)
  · exact h (iter + 1) (by omega)

theorem scan_returns (heos : ∀ q ∈ qs, (σ q).fin = .eos) (hp : p ∉ qs) (fuel : Nat) :
    ∀ {iter size : Nat} {s : State} {c : Chans}, Stands p σ qs k s (c, fun _ => []) →
      s.participants.length < fuel → (iter < s.participants.length ∨ s.participants = []) →
      CollM.Returns p (scan true fuel iter (-1) size) s c fun _ _ _ => True := by
  induction fuel with
  | zero => intro _ _ _ _ _ h; exact absurd h (Nat.not_lt_zero _)
  | succ fuel ih =>
  intro iter size s c hS hlen hiter
  by_cases hne : s.participants = []
  · exact Returns.of_done (run_scan_stop (by tauto) true _ _ _) trivial
  have hlt : iter < s.participants.length := hiter.resolve_right hne
  have hi : s.participants[iter]? = some s.participants[iter] := List.getElem?_eq_getElem hlt
  set h := s.participants[iter]
  have hq := hS.peer_mem hi
  obtain ⟨m, l, hc⟩ := List.exists_cons_of_ne_nil (hS.chan_ne_nil hq)
  rw [scan.eq_2]
  refine Returns.get_bind ?_
  simp only [Int.reduceNeg, ne_eq, true_and, decide_not, Bool.not_not, decide_eq_true_eq, hne,
    not_false_eq_true, ↓reduceIte, pure_bind]
  refine Returns.participantsAt_bind hi ?_
  simp only [probeRaw, Handle.probe, bind_assoc]
  refine Returns.probe_bind hc ?_
  rcases hS.head hq (heos _ hq) hc with ⟨f, hf, rfl⟩ | ⟨hk, rfl⟩
  · have hne : f ≠ [] := PeerStream.ne_nil_of_getElem? hf
    simp only [Msg.reply_frame, pure_bind, sizeofSizeT, Nat.ofNat_pos, true_and, List.length_eq_zero, hne, ↓reduceIte, gt_iff_lt]
    exact Returns.modify_bind (Returns.setParticipant_bind
      (Returns.of_done (run_advance_of_ne (by decide) _ _ _ _ _) trivial))
  · simp only [Msg.reply_frame, List.length_nil, pure_bind, sizeofSizeT, Nat.ofNat_pos, and_true, ↓reduceIte, gt_iff_lt]
    have hS₃ := hS.erase heos hi hc
    have hlen₃ : (s.participants.eraseIdx iter).length = s.participants.length - 1 :=
      List.length_eraseIdx_of_lt hlt
    refine Returns.modify_bind (Returns.close_bind ⟨Returns.get_bind ?_, Returns.get_bind ?_⟩) <;>
    · split
      · exact ih (by first | exact hS₃ | exact hS₃.push_out hp _ _) (by simp only [hlen₃]; omega)
          (List.length_pos_or_nil _)
      · refine advance_returns (fun j hj => ih (by first | exact hS₃ | exact hS₃.push_out hp _ _)
          (by simp only [hlen₃]; omega) (.inl hj)) ?_
        simp only [hlen₃] at *
        omega

theorem probe_returns (heos : ∀ q ∈ qs, (σ q).fin = .eos) (hp : p ∉ qs) {fuel : Nat}
    (hfuel : qs.length < fuel) (size : Nat) {c : Chans} (hS : Stands p σ qs k s (c, fun _ => [])) :
    CollM.Returns p (probe fuel size true) s c fun _ _ _ => True := by
  have hlen : s.participants.length < fuel := by
    have := hS.sub.length_le; simp only [List.length_map] at this; omega
  unfold probe
  refine Returns.bind ((scan_returns heos hp fuel hS hlen (List.length_pos_or_nil _)).mono
    fun r s' c' _ => ?_)
  refine Returns.get_bind ?_
  split <;> exact Returns.pure trivial

theorem receive_returns (heos : ∀ q ∈ qs, (σ q).fin = .eos) (cap : Nat) (buff : Buf) {c : Chans}
    {r : Int × Nat} (hS : Stands p σ qs k s (c, fun _ => [])) (hF : Found p σ k s c r) :
    CollM.Returns p (receive (some buff) cap) s c fun _ _ _ => True := by
  obtain ⟨-, h, f, h0, hi, hf, hc, -⟩ := hF
  have hq := hS.peer_mem hi
  obtain ⟨m, l, hc⟩ := List.exists_cons_of_ne_nil hc
  obtain ⟨f', -, rfl⟩ | ⟨hk, rfl⟩ := hS.head hq (heos _ hq) hc
  · unfold receive receiveRaw
    refine Returns.get_bind ?_
    simp only [show ¬ s.probedIdx < 0 from not_lt.mpr h0, ↓reduceIte, pure_bind, bind_assoc]
    refine Returns.participantsAt_bind hi (Returns.receive_bind hc ?_)
    simp only [writePtr, pure_bind]
    split
    · exact Returns.pure trivial
    · exact Returns.setParticipant_bind (Returns.modify_bind (Returns.pure trivial))
  · exact absurd hk (List.getElem?_eq_some_iff.mp hf).1.ne

/-- Taking a frame of a peer leaves one frame fewer to take. -/
theorem remaining_take_sum {q : Nat} (hq : q ∈ qs) {f : Bytes} (hf : (σ q).frames[k q]? = some f) :
    (qs.map fun q' => (remaining σ qs (Function.update k q (k q + 1)) q').length).sum <
      (qs.map fun q' => (remaining σ qs k q').length).sum := by
  refine List.sum_lt_sum _ _ (fun q' _ => ?_) ⟨q, hq, by simp [remaining_take hq hf]⟩
  by_cases hqq : q' = q
  · subst hqq; simp [remaining_take hq hf]
  · simp [remaining, Function.update_noteq hqq]

theorem drain_runs (heos : ∀ q ∈ qs, (σ q).fin = .eos) (hp : p ∉ qs) {cap : Nat}
    (hcap : ∀ q ∈ qs, ∀ f ∈ (σ q).frames, f.length ≤ cap) {fuel : Nat} (hfuel : qs.length < fuel)
    (buff : Buf) (n : Nat) :
    ∀ {k s c}, Stands p σ qs k s (c, fun _ => []) →
      (qs.map fun q => (remaining σ qs k q).length).sum < n →
      CollM.Returns p (drain fuel cap buff n) s c fun _ _ _ => True := by
  induction n with
  | zero => intro _ _ _ _ h; exact absurd h (Nat.not_lt_zero _)
  | succ n ih =>
  intro k s c hS hn
  rw [drain, takeFrames]
  refine Returns.bind (((probe_returns heos hp hfuel 0 hS).and_safe
    (probe_safe heos hp fuel 0 hS)).mono fun r s' c' hr => ?_)
  obtain ⟨res, size⟩ := r
  obtain ⟨-, hS', ⟨hnil, hr0⟩ | hF⟩ := hr
  · simp only at hr0
    simp only [hr0, or_true, ↓reduceIte]
    exact Returns.pure trivial
  · have hgo : ¬ (res ≤ 0 ∨ size = 0) := by
      obtain ⟨hr1, h, f, -, -, hf, -, hr2⟩ := hF
      have := List.length_pos.mpr (PeerStream.ne_nil_of_getElem? hf)
      simp only [sizeofSizeT] at hr1 hr2
      omega
    simp only [hgo, ↓reduceIte, pure_bind]
    refine Returns.bind (((receive_returns heos cap buff hS' hF).and_safe
      (receive_safe heos hcap buff hS' hF)).mono fun r' s'' c'' hr' => ?_)
    obtain ⟨-, q, f, hq, hf, rfl, hS''⟩ := hr'
    have hpos : ¬ (f.length : Int) ≤ 0 := by
      have := List.length_pos.mpr (PeerStream.ne_nil_of_getElem? hf); omega
    simp only [hpos, ↓reduceIte, pure_bind]
    refine Returns.bind ((ih hS'' ?_).mono fun _ _ _ _ => Returns.pure trivial)
    have := remaining_take_sum hq hf (σ := σ) (k := k)
    omega

-- ---------------------------------------------------------------------------
-- The drain from a fresh root
-- ---------------------------------------------------------------------------

/-- Right after construction the root holds a fresh handle to each peer and has taken nothing. -/
theorem stands_start {c : Chans} {later : Nat → List Msg}
    (hc : ∀ q ∈ qs, c (q, p) ++ later q = (σ q).msgs) :
    Stands p σ qs (fun _ => 0) { participants := qs.map Handle.fresh } (c, later) where
  sub := by simp [Function.comp_def]
  le _ _ := Nat.zero_le _
  rest q hq := by simpa using hc q hq
  gone q hq hn := absurd (by simpa [Function.comp_def] using hq) hn

theorem remaining_zero :
    remaining σ qs (fun _ => 0) = fun q => if q ∈ qs then (σ q).frames else [] := by
  funext q; simp [remaining]

/-- Every run of the drain that returns, whatever arrives when, returns an interleaving of all the
peers' messages, each in order, each once, with every handle dropped. -/
theorem drain_delivers (σ : Nat → PeerStream) (qs : List Nat) {p : Nat} (hp : p ∉ qs)
    (heos : ∀ q ∈ qs, (σ q).fin = .eos) {cap : Nat}
    (hcap : ∀ q ∈ qs, ∀ f ∈ (σ q).frames, f.length ≤ cap) (fuel n : Nat) (buff : Buf)
    {c : Chans} {later : Nat → List Msg} (hc : ∀ q ∈ qs, c (q, p) ++ later q = (σ q).msgs) :
    CollM.Safe p (drain fuel cap buff n) { participants := qs.map Handle.fresh } (c, later)
      fun out s' _ =>
        Interleaves (fun q => if q ∈ qs then (σ q).frames else []) out ∧ s'.participants = [] :=
  (drain_safe heos hp hcap fuel buff n (stands_start hc)).mono fun _ _ _ h => remaining_zero ▸ h

/-- Two peers, one with two messages and one with one, everything still to arrive. -/
theorem drain_delivers_two_peers :
    let σ : Nat → PeerStream := fun q => ⟨if q = 1 then [[1], [2, 3]] else [[4]], .eos, by
      split <;> decide⟩
    CollM.Safe 0 (drain 3 2 (fun _ => 0) 4) { participants := [1, 2].map Handle.fresh }
      (fun _ => [], fun q => (σ q).msgs) fun out s' _ =>
        Interleaves (fun q => if q ∈ [1, 2] then (σ q).frames else []) out ∧
          s'.participants = [] := by
  intro σ
  exact drain_delivers σ [1, 2] (by decide) (by decide) (by decide) 3 4 _ (fun _ _ => rfl)

/-- Once every stream has arrived the drain returns, given enough scan turns and rounds. -/
theorem drain_returns (σ : Nat → PeerStream) (qs : List Nat) {p : Nat} (hp : p ∉ qs)
    (heos : ∀ q ∈ qs, (σ q).fin = .eos) {cap : Nat}
    (hcap : ∀ q ∈ qs, ∀ f ∈ (σ q).frames, f.length ≤ cap) {fuel : Nat} (hfuel : qs.length < fuel)
    (buff : Buf) {n : Nat} (hn : (qs.map fun q => (σ q).frames.length).sum < n) {c : Chans}
    (hc : ∀ q ∈ qs, c (q, p) = (σ q).msgs) :
    ∃ out s' c', Runs p (drain fuel cap buff n) { participants := qs.map Handle.fresh } c out s' c' ∧
      Interleaves (fun q => if q ∈ qs then (σ q).frames else []) out ∧ s'.participants = [] := by
  have hS : Stands p σ qs (fun _ => 0) { participants := qs.map Handle.fresh } (c, fun _ => []) :=
    stands_start (by simpa using hc)
  have hn' : (qs.map fun q => (remaining σ qs (fun _ => 0) q).length).sum < n := by
    have : (qs.map fun q => (remaining σ qs (fun _ => 0) q).length) =
        qs.map fun q => (σ q).frames.length :=
      List.map_congr_left fun q hq => by simp [remaining, hq]
    rwa [this]
  obtain ⟨out, s', c', hr, -, hI⟩ :=
    (drain_runs heos hp hcap hfuel buff n hS hn').and_safe (drain_safe heos hp hcap fuel buff n hS)
  exact ⟨out, s', c', hr, remaining_zero ▸ hI.1, hI.2⟩

/-- The same two peers, everything arrived: the drain returns. -/
theorem drain_returns_two_peers :
    let σ : Nat → PeerStream := fun q => ⟨if q = 1 then [[1], [2, 3]] else [[4]], .eos, by
      split <;> decide⟩
    ∃ out s' c', Runs 0 (drain 3 2 (fun _ => 0) 4) { participants := [1, 2].map Handle.fresh }
        (fun ch => if ch.2 = 0 then (σ ch.1).msgs else []) out s' c' ∧
      Interleaves (fun q => if q ∈ [1, 2] then (σ q).frames else []) out ∧ s'.participants = [] := by
  intro σ
  exact drain_returns σ [1, 2] (by decide) (by decide) (by decide) (by decide) _ (by decide)
    (fun _ _ => rfl)

-- ---------------------------------------------------------------------------
-- The first handle first
-- ---------------------------------------------------------------------------

/-- A scan handed anything but `-1`, or with no handle left, stops at once. -/
theorem scan_stops {res : Int} {size : Nat} (hstop : ¬ (res = -1 ∧ s.participants ≠ []))
    (fuel iter : Nat) {Q : Int × Nat → State → Feed → Prop}
    (h : ∀ y, Arrivals p x y → Q (res, size) s y) :
    CollM.Safe p (scan true fuel iter res size) s x Q := by
  unfold CollM.Safe; rw [run_scan_stop hstop]; exact Proc.Safe.done h

/-- When the first handle's peer has a frame waiting, `probe` reports it and marks that handle
probed, whatever the other connections hold. -/
theorem probe_first_safe {h₀ : Handle} {hs : List Handle} (hpart : s.participants = h₀ :: hs)
    {f : Bytes} (hf : f ≠ []) {l : List Msg} (hc : x.1 (h₀.peer, p) = .frame f :: l)
    (fuel size : Nat) :
    CollM.Safe p (probe fuel size true) s x fun r s' y =>
      r = (sizeofSizeT, f.length) ∧
      s' = { s with participants := { h₀ with probed := (true, f.length) } :: hs, probedIdx := 0 } ∧
      ∃ l', y.1 (h₀.peer, p) = x.1 (h₀.peer, p) ++ l' := by
  unfold probe
  refine Safe.bind ?_
  cases fuel with
  | zero => unfold CollM.Safe; rw [run_scan_zero (by simp [hpart])]; exact Proc.Safe.crash
  | succ fuel =>
  rw [scan.eq_2]
  refine Safe.get_bind ?_
  simp only [hpart, Int.reduceNeg, ne_eq, reduceCtorEq, not_false_eq_true, and_self, decide_True,
    Bool.not_true, Bool.false_eq_true, ↓reduceIte, pure_bind]
  refine Safe.participantsAt_bind (i := 0) (h := h₀) (by simp [hpart]) ?_
  simp only [probeRaw, Handle.probe, bind_assoc]
  refine Safe.probe_bind fun y hy => ⟨fun hnil _ => ?_, fun m l' hc' => ?_⟩
  · obtain ⟨l'', hl⟩ := hy.append (h₀.peer, p)
    simp [hl, hc] at hnil
  obtain ⟨l'', hl⟩ := hy.append (h₀.peer, p)
  rw [hl, hc, List.cons_append, List.cons.injEq] at hc'
  obtain ⟨rfl, -⟩ := hc'
  simp only [Msg.reply_frame, pure_bind, sizeofSizeT, Nat.ofNat_pos, true_and, gt_iff_lt,
    List.length_eq_zero, hf, ↓reduceIte]
  refine Safe.modify_bind (Safe.setParticipant_bind (advance_safe fun j => ?_))
  refine scan_stops (by simp [sizeofSizeT]) fuel j fun y' hy' => Safe.get_bind ?_
  simp only [hpart, List.set_cons_zero, reduceCtorEq, ↓reduceIte]
  exact Safe.pure fun y'' hy'' => ⟨rfl, rfl, Arrivals.append (hy.trans (hy'.trans hy'')) _⟩

/-- A receive after such a probe takes that frame from the first handle. -/
theorem receive_first_safe {h₀ : Handle} {hs : List Handle} (hpart : s.participants = h₀ :: hs)
    (hidx : s.probedIdx = 0) {f : Bytes} (hf : f ≠ []) {cap : Nat} (hcap : f.length ≤ cap)
    {l : List Msg} (hc : x.1 (h₀.peer, p) = .frame f :: l) (buff : Buf) :
    CollM.Safe p (receive (some buff) cap) s x fun r s' y =>
      r = ((f.length : Int), some (buff.write 0 f)) ∧
      s' = { s with participants := { h₀ with probed := (false, 0) } :: hs, probedIdx := -1 } ∧
      ∃ l', y.1 (h₀.peer, p) = l ++ l' := by
  unfold receive receiveRaw
  refine Safe.get_bind ?_
  simp only [hidx, lt_irrefl, ↓reduceIte, pure_bind, bind_assoc]
  refine Safe.participantsAt_bind (by simp [hpart] : s.participants[(0 : Int).toNat]? = some h₀)
    (Safe.receive_bind fun y hy => ⟨fun f' l' hc' => ?_, fun m l' hc' hm => ?_⟩)
  · obtain ⟨l'', hl⟩ := hy.append (h₀.peer, p)
    rw [hl, hc, List.cons_append, List.cons.injEq, Msg.frame.injEq] at hc'
    obtain ⟨rfl, rfl⟩ := hc'
    have hpos : ¬ (f.length : Int) ≤ 0 := by have := List.length_pos.mpr hf; omega
    simp only [List.take_of_length_le hcap, writePtr, pure_bind, hpos, ↓reduceIte]
    refine Safe.setParticipant_bind (Safe.modify_bind (Safe.pure fun y' hy' =>
      ⟨rfl, by simp [hpart], ?_⟩))
    obtain ⟨l₃, hl₃⟩ := hy'.append (h₀.peer, p)
    exact ⟨l'' ++ l₃, by rw [hl₃]; simp [Act.apply, Act.edit, hl, hc]⟩
  · obtain ⟨l'', hl⟩ := hy.append (h₀.peer, p)
    rw [hl, hc, List.cons_append, List.cons.injEq] at hc'
    exact absurd hc'.1.symm (hm f)

/-- Every scan starts at `participants.begin()`, so the drain takes the first handle's waiting
frames before anything from any other peer. -/
theorem drain_first_handle_first {h₀ : Handle} {hs : List Handle}
    (hpart : s.participants = h₀ :: hs) {fs : List Bytes} (hne : [] ∉ fs) {cap : Nat}
    (hcap : ∀ f ∈ fs, f.length ≤ cap) {l : List Msg} (hc : x.1 (h₀.peer, p) = fs.map .frame ++ l)
    (fuel : Nat) (buff : Buf) (n : Nat) :
    CollM.Safe p (drain fuel cap buff n) s x fun out _ _ => fs <+: out := by
  induction fs generalizing h₀ s x n l with
  | nil => exact fun _ _ _ => List.nil_prefix
  | cons f fs ih =>
    cases n with
    | zero => exact Safe.crash
    | succ n =>
    have hf : f ≠ [] := fun h => hne (h ▸ List.mem_cons_self _ _)
    rw [drain, takeFrames]
    refine Safe.bind ((probe_first_safe hpart hf hc fuel 0).mono fun r s' y hr => ?_)
    obtain ⟨rfl, rfl, l', hl'⟩ := hr
    have hgo : ¬ ((sizeofSizeT : Int) ≤ 0 ∨ f.length = 0) := by simp [sizeofSizeT, hf]
    simp only [hgo, ↓reduceIte, pure_bind]
    have hy : y.1 (h₀.peer, p) = .frame f :: (fs.map .frame ++ l ++ l') := by simp [hl', hc]
    let h₁ : Handle := { h₀ with probed := (true, f.length) }
    have hp : ({ s with participants := h₁ :: hs, probedIdx := 0 } : State).participants =
        h₁ :: hs := rfl
    refine Safe.bind ((receive_first_safe hp rfl hf (hcap f (List.mem_cons_self _ _)) hy
      buff).mono fun r s'' y' hr => ?_)
    obtain ⟨rfl, rfl, l₂, hl₂⟩ := hr
    have hpos : ¬ (f.length : Int) ≤ 0 := by have := List.length_pos.mpr hf; omega
    simp only [hpos, ↓reduceIte, pure_bind]
    let s₂ : State := { s with participants := { h₁ with probed := (false, 0) } :: hs, probedIdx := -1 }
    refine Safe.bind ((ih (s := s₂) rfl
      (fun h => hne (List.mem_cons_of_mem _ h)) (fun f' h => hcap f' (List.mem_cons_of_mem _ h))
      (l := l ++ l' ++ l₂) (hl₂.trans (by simp only [List.append_assoc])) n).mono
      fun out _ _ hI => ?_)
    exact Safe.pure fun _ _ => by simpa using hI

/-- Two peers with a frame each already waiting, peer `1` with a second one: every run of the
drain that returns, returns both of peer `1`'s frames before peer `2`'s. -/
theorem drain_first_handle_first_two_peers :
    CollM.Safe 0 (drain 3 1 (fun _ => 0) 4) { participants := [.fresh 1, .fresh 2] }
      (fun ch => if ch = (1, 0) then [.frame [1], .frame [2], .frame []]
        else if ch = (2, 0) then [.frame [3], .frame []] else [], fun _ => [])
      fun out _ _ => [[1], [2]] <+: out :=
  drain_first_handle_first rfl (by decide) (by decide) (l := [.frame []]) rfl 3
    (fun _ => 0) 4

end FanInGeneric
