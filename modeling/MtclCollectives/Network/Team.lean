-- SUMMARY: The team running one collective: its team ranks and their handles, the connections of a star around the root, and how runs of its members compose into runs of the team.
import Mathlib.Algebra.Group.Nat.Basic
import MtclCollectives.Network.Run

/-!
# Teams

A group of `n` ranks with the root at `0`, its handles to every other rank and theirs to it
(spec §3); the star of connections `Chans.star`, and runs of single members composed into runs
of the group, settling every interleaving when all members block.
-/

/-- The arguments of one call `sendrecv(sendbuff, sendsize, recvbuff, recvsize, datasize)`:
the buffers, `none` for a null pointer, and the sizes in bytes. -/
structure Call where
  sendbuff : Option Buf
  sendsize : Nat
  recvbuff : Option Buf
  recvsize : Nat
  datasize : Nat

/-- A team of `n` participants, the group of a collective, with `int` team ranks. -/
structure Team where
  n : Nat
  one_le : 1 ≤ n
  le_int : n ≤ 2 ^ 31

namespace Team

variable (g : Team) {α : Type}

/-- What the collective object of team rank `r` reads. -/
def config (r : Nat) : Config :=
  { nparticipants := g.n, rank := r, root := r == 0, one_le := g.one_le }

/-- The handles of team rank `r`: the root's lead to ranks `1, …, n - 1`, the others' to the
root. -/
def participants (r : Nat) : List Handle :=
  if r = 0 then (List.range (g.n - 1)).map fun i => .fresh (i + 1) else [.fresh 0]

/-- Team rank `r` before a collective call, with every handle fresh. -/
def state (r : Nat) : State := { participants := g.participants r }

/-- The group's members: `f r` at each team rank, nothing beyond. -/
def procs (f : Nat → Proc α) : Nat → Proc α :=
  fun r => if r < g.n then f r else .crash

@[simp] theorem config_nparticipants (r : Nat) : (g.config r).nparticipants = g.n := rfl
@[simp] theorem config_rank (r : Nat) : (g.config r).rank = r := rfl
@[simp] theorem config_root (r : Nat) : (g.config r).root = (r == 0) := rfl

@[simp] theorem state_participants (r : Nat) : (g.state r).participants = g.participants r := rfl

theorem participants_root_getElem? {i : Nat} (hi : i + 1 < g.n) :
    (g.participants 0)[i]? = some (.fresh (i + 1)) := by
  simp [participants, List.getElem?_map, List.getElem?_range (by omega : i < g.n - 1)]

theorem participants_getElem?_zero {r : Nat} (hr : r ≠ 0) :
    (g.participants r)[0]? = some (.fresh 0) := by
  simp [participants, hr]

theorem procs_of_lt {f : Nat → Proc α} {r : Nat} (hr : r < g.n) : g.procs f r = f r := if_pos hr

theorem zero_lt : 0 < g.n := g.one_le

end Team

-- ---------------------------------------------------------------------------
-- Runs of a group
-- ---------------------------------------------------------------------------

namespace Net

variable {α : Type}

/-- Ranks `a, …, a + k - 1` run one after another, each alone, rank `r` taking the
connections from `c r` to `c (r + 1)`. -/
theorem reach_range {s : Net α} {u : Nat → Proc α} {c : Nat → Chans} {a : Nat} (k : Nat)
    (h0 : s.chans = c a)
    (h : ∀ i < k, Proc.Run (a + i) (s.procs (a + i), c (a + i)) (u (a + i), c (a + i + 1))) :
    Reach s ⟨fun p => if a ≤ p ∧ p < a + k then u p else s.procs p, c (a + k)⟩ := by
  induction k with
  | zero =>
    have : (fun p => if a ≤ p ∧ p < a + 0 then u p else s.procs p) = s.procs := by
      funext p; simp only [ite_eq_right_iff, and_imp]; omega
    rw [this, Nat.add_zero, ← h0]
  | succ k ih =>
    refine (ih fun i hi => h i (by omega)).trans ?_
    have hk := reach_of_run (s := ⟨fun p => if a ≤ p ∧ p < a + k then u p else s.procs p, c (a + k)⟩)
      (p := a + k) (by simpa using h k (by omega))
    convert hk using 2
    funext p
    by_cases hp : p = a + k
    · subst hp; simp
    · rw [Function.update_noteq hp]
      congr 1
      apply propext
      omega

/-- Whatever the interleaving, participant `p` returns `v` if it returns, and every run can
be continued until it does. -/
def Determined (s : Net α) (p : Nat) (v : α) : Prop :=
  ∀ t, Reach s t → (∀ w, t.procs p = .done w → w = v) ∧ ∃ u, Reach t u ∧ u.procs p = .done v

/-- When every rank `0 < r < n` is determined, every run can be continued until all of them
have returned. -/
theorem exists_reach_all_done {s t : Net α} (hs : Reach s t) {n : Nat} {v : Nat → α}
    (hd : ∀ r, 0 < r → r < n → s.Determined r (v r)) :
    ∃ u, Reach t u ∧ ∀ r, 0 < r → r < n → u.procs r = .done (v r) := by
  induction n with
  | zero => exact ⟨t, .refl, fun _ _ h => absurd h (Nat.not_lt_zero _)⟩
  | succ n ih =>
    obtain ⟨u, hu, hdone⟩ := ih fun r hr hrn => hd r hr (Nat.lt_succ_of_lt hrn)
    rcases Nat.eq_zero_or_pos n with rfl | hn
    · exact ⟨u, hu, fun r hr hrn => absurd hrn (by omega)⟩
    obtain ⟨u', hu', hn'⟩ := (hd n hn (Nat.lt_succ_self n) u (hs.trans hu)).2
    refine ⟨u', hu.trans hu', fun r hr hrn => ?_⟩
    rcases Nat.lt_succ_iff_lt_or_eq.mp hrn with hrn | rfl
    · exact hu'.done (hdone r hr hrn)
    · exact hn'

/-- For blocking members, one run in which `p` returns `v` settles every interleaving. -/
theorem determined_of_reach {s F : Net α} {p : Nat} {v : α} (hb : s.AllBlocking) (hF : Reach s F)
    (hv : F.procs p = .done v) : s.Determined p v :=
  fun _ ht => ⟨fun _ hw => done_unique hb ht hF hw hv, reach_done hb ht hF hv⟩

end Net

namespace Team

variable (g : Team) {α β : Type}

/-- The group at the start of a collective call: team rank `r` runs `code r` from a fresh
state and then goes on with `K r`; nothing is in flight. -/
def start (code : Nat → CollM α) (K : Nat → α × State → Proc β) : Net β :=
  ⟨g.procs fun r => (code r).run (g.state r) >>= K r, fun _ => []⟩

/-- The group after the call: team rank `r` returned `v r` with its handles as they were, and
goes on with `K r`; nothing is in flight. -/
def finish (v : Nat → α) (K : Nat → α × State → Proc β) : Net β :=
  ⟨g.procs fun r => K r (v r, g.state r), fun _ => []⟩

/-- The group running one collective call and nothing after it. -/
def launch (code : Nat → CollM α) : Net (α × State) := g.start code fun _ => .done

variable {g}

theorem start_allBlocking {code : Nat → CollM α} {K : Nat → α × State → Proc β}
    (hc : ∀ r, CollM.Blocking (code r)) (hK : ∀ r x, (K r x).Blocking) :
    (g.start code K).AllBlocking := fun r => by
  unfold start procs
  dsimp only
  split
  · exact (hc r _).bind (hK r)
  · exact .crash

/-- Ranks `0, …, n - 1` run the call one after another, each from start to return, rank `r`
taking the connections from `c r` to `c (r + 1)`. -/
theorem reach_finish {code : Nat → CollM α} {K : Nat → α × State → Proc β} {v : Nat → α}
    (c : Nat → Chans) (h0 : c 0 = fun _ => []) (hn : c g.n = fun _ => [])
    (h : ∀ r < g.n, Proc.Run r ((code r).run (g.state r) >>= K r, c r) (K r (v r, g.state r), c (r + 1))) :
    Net.Reach (g.start code K) (g.finish v K) := by
  have := Net.reach_range (s := g.start code K) (u := fun r => K r (v r, g.state r)) (c := c)
    (a := 0) g.n h0.symm fun i hi => by simpa [start, g.procs_of_lt hi] using h i hi
  convert this using 2
  · funext r
    by_cases hr : r < g.n <;> simp [finish, start, procs, hr]
  · rw [Nat.zero_add, hn]; rfl

/-- The other ranks run up to `mid r`, then the root runs its call, then the other ranks finish. -/
theorem reach_finish_two_phase {code : Nat → CollM α} {K : Nat → α × State → Proc β}
    {v : Nat → α} (mid : Nat → Proc β) (c d : Nat → Chans) (hc : c 1 = fun _ => [])
    (hd : d g.n = fun _ => [])
    (hsend : ∀ r, 0 < r → r < g.n →
      Proc.Run r ((code r).run (g.state r) >>= K r, c r) (mid r, c (r + 1)))
    (hroot : Proc.Run 0 ((code 0).run (g.state 0) >>= K 0, c g.n) (K 0 (v 0, g.state 0), d 1))
    (hrecv : ∀ r, 0 < r → r < g.n → Proc.Run r (mid r, d r) (K r (v r, g.state r), d (r + 1))) :
    Net.Reach (g.start code K) (g.finish v K) := by
  have hn : 1 + (g.n - 1) = g.n := by have := g.one_le; omega
  have h₁ := Net.reach_range (s := g.start code K) (u := mid) (c := c) (a := 1) (g.n - 1) hc.symm
    fun i hi => by
      simpa [start, g.procs_of_lt (show 1 + i < g.n by omega)] using
        hsend (1 + i) (by omega) (by omega)
  rw [hn] at h₁
  have h₂ := Net.reach_of_run (p := 0) (u := K 0 (v 0, g.state 0)) (c := d 1)
    (s := ⟨fun p => if 1 ≤ p ∧ p < g.n then mid p else (g.start code K).procs p, c g.n⟩)
    (by simpa [start, g.procs_of_lt g.zero_lt] using hroot)
  have h₃ := Net.reach_range (u := fun r => K r (v r, g.state r))
    (s := ⟨Function.update (fun p => if 1 ≤ p ∧ p < g.n then mid p else (g.start code K).procs p)
      0 (K 0 (v 0, g.state 0)), d 1⟩)
    (c := d) (a := 1) (g.n - 1) rfl fun i hi => by
      simpa [Function.update_noteq (show 1 + i ≠ 0 by omega), show 1 + i < g.n by omega]
        using hrecv (1 + i) (by omega) (by omega)
  refine h₁.trans (h₂.trans ?_)
  convert h₃ using 2
  · funext r
    rcases Nat.eq_zero_or_pos r with rfl | hr
    · simp [finish, g.procs_of_lt g.zero_lt]
    · by_cases hrn : r < g.n
      · simp [finish, g.procs_of_lt hrn, hr, hn, hrn, Nat.one_le_iff_ne_zero.mpr hr.ne']
      · simp [finish, start, procs, hrn, hn, hr.ne']
  · rw [hn, hd]; rfl

/-- A member runs its call alone, from where it stands to its return. -/
theorem reach_runs {s : Net (α × State)} {m : CollM α} {p : Nat} {st st' : State} {a : α}
    {c' : Chans} (hp : s.procs p = m.run st >>= .done) (h : CollM.Runs p m st s.chans a st' c') :
    Net.Reach s ⟨Function.update s.procs p (.done (a, st')), c'⟩ :=
  Net.reach_of_run (hp ▸ h.cont _)

theorem launch_procs {code : Nat → CollM α} {r : Nat} (hr : r < g.n) :
    (g.launch code).procs r = (code r).run (g.state r) >>= .done :=
  g.procs_of_lt (f := fun r => (code r).run (g.state r) >>= .done) hr

theorem launch_allBlocking {code : Nat → CollM α} (hc : ∀ r, CollM.Blocking (code r)) :
    (g.launch code).AllBlocking :=
  start_allBlocking hc fun _ _ => .done _

/-- When the root runs its call alone from the start and rank `r` then runs its own, rank `r`
returns the same in every interleaving. -/
theorem determined_after_root {code : Nat → CollM α} (hc : ∀ r, CollM.Blocking (code r))
    {r : Nat} (hr : 0 < r) (hrn : r < g.n) {a₀ v : α} {s₀ s : State} {c₁ c₂ : Chans}
    (h₀ : CollM.Runs 0 (code 0) (g.state 0) (fun _ => []) a₀ s₀ c₁)
    (h₁ : CollM.Runs r (code r) (g.state r) c₁ v s c₂) :
    (g.launch code).Determined r (v, s) := by
  refine Net.determined_of_reach (launch_allBlocking hc) ((reach_runs (launch_procs g.zero_lt) h₀).trans
    (reach_runs ?_ h₁)) (Function.update_same _ _ _)
  exact (Function.update_noteq hr.ne' _ _).trans (launch_procs hrn)

/-- When rank `q` first runs part of its call, and the root then runs its whole call, the root
returns the same in every interleaving. -/
theorem determined_root_after {code : Nat → CollM α} (hc : ∀ r, CollM.Blocking (code r))
    {q : Nat} (hq : 0 < q) (hqn : q < g.n) {mid : Proc (α × State)} {a : α} {s : State}
    {c₁ c₂ : Chans} (h₁ : Proc.Run q ((code q).run (g.state q) >>= .done, fun _ => []) (mid, c₁))
    (h₀ : CollM.Runs 0 (code 0) (g.state 0) c₁ a s c₂) :
    (g.launch code).Determined 0 (a, s) := by
  have hq₁ := Net.reach_of_run (s := g.launch code) (p := q) (by rwa [launch_procs hqn])
  refine Net.determined_of_reach (launch_allBlocking hc) (hq₁.trans (reach_runs ?_ h₀))
    (Function.update_same 0 _ (Function.update (g.launch code).procs q mid))
  exact (Function.update_noteq hq.ne _ _).trans (launch_procs g.zero_lt)

/-- A call that goes from start to finish in one run returns the same in every interleaving. -/
theorem determined_of_finish {code : Nat → CollM α} {v : Nat → α}
    (hc : ∀ r, CollM.Blocking (code r)) (hR : Net.Reach (g.launch code) (g.finish v fun _ => .done))
    {r : Nat} (hr : r < g.n) : (g.launch code).Determined r (v r, g.state r) :=
  Net.determined_of_reach (launch_allBlocking hc) hR
    (g.procs_of_lt (f := fun r => .done (v r, g.state r)) hr)

end Team

-- ---------------------------------------------------------------------------
-- The star of connections around the root
-- ---------------------------------------------------------------------------

namespace Chans

/-- The connections `(0, r)` from the root hold `down r`, the connections `(r, 0)` to the root
hold `up r`, and nothing else holds anything. -/
def star (down up : Nat → List Msg) : Chans :=
  fun ch => if ch.1 = 0 then down ch.2 else if ch.2 = 0 then up ch.1 else []

variable {down up : Nat → List Msg} {r : Nat}

@[simp] theorem star_down (r : Nat) : star down up (0, r) = down r := rfl

theorem star_up (hr : r ≠ 0) : star down up (r, 0) = up r := by simp [star, hr]

theorem star_empty : star (fun _ => []) (fun _ => []) = fun _ => [] := by
  funext ch; simp [star]

theorem pop_star_down (r : Nat) :
    (Act.pop (0, r)).apply (star down up) = star (Function.update down r (down r).tail) up := by
  funext ⟨a, b⟩
  by_cases ha : a = 0
  · subst ha
    rcases eq_or_ne b r with rfl | hb <;> simp [Act.apply, Act.edit, star, *]
  · simp [Act.apply, Act.edit, star, ha]

theorem pop_star_up (hr : r ≠ 0) :
    (Act.pop (r, 0)).apply (star down up) = star down (Function.update up r (up r).tail) := by
  funext ⟨a, b⟩
  by_cases ha : a = 0
  · simp [Act.apply, Act.edit, star, ha, Ne.symm hr]
  · by_cases hb : b = 0
    · subst hb
      rcases eq_or_ne a r with rfl | har <;> simp [Act.apply, Act.edit, star, *]
    · simp [Act.apply, Act.edit, star, ha, hb]

theorem push_star_down (r : Nat) (m : Msg) :
    (Act.push (0, r) m).apply (star down up) = star (Function.update down r (down r ++ [m])) up := by
  funext ⟨a, b⟩
  by_cases ha : a = 0
  · subst ha
    rcases eq_or_ne b r with rfl | hb <;> simp [Act.apply, Act.edit, star, *]
  · simp [Act.apply, Act.edit, star, ha]

theorem push_star_up (hr : r ≠ 0) (m : Msg) :
    (Act.push (r, 0) m).apply (star down up) = star down (Function.update up r (up r ++ [m])) := by
  funext ⟨a, b⟩
  by_cases ha : a = 0
  · simp [Act.apply, Act.edit, star, ha, Ne.symm hr]
  · by_cases hb : b = 0
    · subst hb
      rcases eq_or_ne a r with rfl | har <;> simp [Act.apply, Act.edit, star, *]
    · simp [Act.apply, Act.edit, star, ha, hb]

/-- One frame `f r` on the connection of each rank `r` with `lo ≤ r < hi`, nothing on the
others. -/
def span (lo hi : Nat) (f : Nat → Bytes) : Nat → List Msg :=
  fun r => if lo ≤ r ∧ r < hi then [.frame (f r)] else []

variable {lo hi : Nat} {f : Nat → Bytes}

theorem span_of_mem (h₁ : lo ≤ r) (h₂ : r < hi) : span lo hi f r = [.frame (f r)] := by
  simp [span, h₁, h₂]

theorem span_empty (h : hi ≤ lo) : span lo hi f = fun _ => [] := by
  funext r; simp only [span, ite_eq_right_iff, and_imp]; omega

/-- Taking the frame of the lowest rank of a span. -/
theorem span_pop : Function.update (span lo hi f) lo (span lo hi f lo).tail = span (lo + 1) hi f := by
  funext r
  by_cases hr : r = lo
  · subst hr; simp only [Function.update_same, span]; split_ifs <;> first | rfl | omega
  · rw [Function.update_noteq hr]; simp only [span]; congr 1; apply propext; omega

/-- Adding a frame for the rank just past a span. -/
theorem span_push (h : lo ≤ hi) :
    Function.update (span lo hi f) hi (span lo hi f hi ++ [.frame (f hi)]) = span lo (hi + 1) f := by
  funext r
  by_cases hr : r = hi
  · subst hr; simp [span, h]
  · rw [Function.update_noteq hr]; simp only [span]; congr 1; apply propext; omega

/-- The root sends `f (i + 1)` to rank `i + 1`, for each `i < k` in turn. -/
theorem sendAll_star_root (up : Nat → List Msg) (k : Nat) :
    sendAll (star (fun _ => []) up) 0 ((List.range k).map fun i => (i + 1, f (i + 1))) =
      star (span 1 (k + 1) f) up := by
  induction k with
  | zero => rw [span_empty le_rfl]; rfl
  | succ k ih =>
    rw [List.range_succ, List.map_append, sendAll_append, ih]
    simp only [List.map_cons, List.map_nil, sendAll_cons, sendAll_nil, push_star_down]
    rw [span_push (by omega)]

/-- Rank `r` sends one frame to the root. -/
theorem sendAll_star_up (hr : r ≠ 0) (down : Nat → List Msg) (m : Bytes) :
    sendAll (star down (span lo r f)) r [(0, m)] =
      star down (Function.update (span lo r f) r (span lo r f r ++ [.frame m])) := by
  simp [push_star_up hr]

end Chans
