-- SUMMARY: What a call returns, against the receives it made and the counts it was given: the non-roots of AllGather and Alltoall report success after a failed receive, and several counts are narrowed to int or wrap.
import MtclCollectives.Collectives.AllGather
import MtclCollectives.Collectives.Alltoall
import MtclCollectives.Collectives.Streams

/-!
# What a call returns

Two things stand between a call's return value and what happened on the wire: the all-gather
and all-to-all non-roots ignore a failed receive, and several counts are narrowed to `int` or
wrap as `size_t` products.
-/

open CollM

-- ---------------------------------------------------------------------------
-- A failed receive of the root's buffer
-- ---------------------------------------------------------------------------

/-- The all-gather and all-to-all non-roots return their count after a receive that failed with
`ENOMEM`, the buffer untouched. -/
theorem nonroot_ignores_failed_receive (g : Team) {r : Nat} (hr : 0 < r) (b rb : Buf)
    {S R ds : Nat} (hds : 0 < ds) {c : Chans} {f : Bytes} {l : List Msg}
    (hc : c (0, r) = .frame f :: l) (hf : R < f.length) :
    let s' : State := { participants := [{ peer := 0, probed := (true, f.length) }], errno := ENOMEM }
    (R % ds = 0 → chunk g.n ds (R / ds) r ≤ S →
      Runs r (AllGatherGeneric.sendrecv (g.config r) (some b) S (some rb) R ds) (g.state r) c
        (chunk g.n ds (R / ds) r, some rb) s'
        ((Act.push (r, 0) (.frame (b.slice 0 (chunk g.n ds (R / ds) r)))).apply c)) ∧
    (S % ds = 0 →
      AlltoallGeneric.selfrecvcount (g.config r) (S / ds / g.n * ds) ds (S / ds % g.n) ≤ R →
      Runs r (AlltoallGeneric.sendrecv (g.config r) (some b) S (some rb) R ds) (g.state r) c
        (AlltoallGeneric.selfrecvcount (g.config r) (S / ds / g.n * ds) ds (S / ds % g.n), some rb)
        s' ((Act.push (r, 0) (.frame (b.slice 0 S))).apply c)) := by
  intro s'
  have hf₀ : f ≠ [] := List.ne_nil_of_length_pos (Nat.zero_lt_of_lt hf)
  have hc' (d : Bytes) : (Act.push (r, 0) (.frame d)).apply c ((Handle.fresh 0).peer, r) =
      .frame f :: l := by
    simp [Act.apply, Act.edit, hr.ne', hc]
  have hs : { g.state r with
      participants := (g.state r).participants.set 0 { Handle.fresh 0 with probed := (true, f.length) }
      errno := ENOMEM } = s' := by
    simp [s', Team.state, Team.participants, hr.ne', Handle.fresh]
  have hi := g.participants_getElem?_zero hr.ne'
  refine ⟨fun hR hss => ?_, fun hS hR => ?_⟩
  · have h₁ := receiveRest_nomem (s := g.state r) rb (chunk g.n ds (R / ds) r) hi
      (Handle.fresh_idle 0) (hc' (b.slice 0 (chunk g.n ds (R / ds) r))) hf₀ hf
    rw [hs] at h₁
    exact Proc.Run.head (AllGatherGeneric.sendrecv_nonroot_next g hr b rb hds hR hss c) h₁
  · have h₁ := receiveRest_nomem (s := g.state r) rb
      (AlltoallGeneric.selfrecvcount (g.config r) (S / ds / g.n * ds) ds (S / ds % g.n)) hi
      (Handle.fresh_idle 0) (hc' (b.slice 0 S)) hf₀ hf
    rw [hs] at h₁
    exact Proc.Run.head (AlltoallGeneric.sendrecv_nonroot_next g hr b rb hds hS hR c) h₁

/-- Two ranks, two one-byte elements, and a three-byte frame from the root: rank `1` returns 1
from `AllGatherGeneric` and 2 from `AlltoallGeneric`, having received nothing. -/
theorem nonroot_ignores_failed_receive_two_ranks :
    let g : Team := ⟨2, by decide, by decide⟩
    let b : Buf := fun _ => 7
    let c : Chans := fun ch => if ch = (0, 1) then [.frame [1, 2, 3]] else []
    let s' : State := { participants := [{ peer := 0, probed := (true, 3) }], errno := ENOMEM }
    Runs 1 (AllGatherGeneric.sendrecv (g.config 1) (some b) 2 (some b) 2 1) (g.state 1) c
        (1, some b) s' ((Act.push (1, 0) (.frame (b.slice 0 1))).apply c) ∧
      Runs 1 (AlltoallGeneric.sendrecv (g.config 1) (some b) 2 (some b) 2 1) (g.state 1) c
        (2, some b) s' ((Act.push (1, 0) (.frame (b.slice 0 2))).apply c) := by
  intro g b c s'
  obtain ⟨h₁, h₂⟩ := nonroot_ignores_failed_receive g Nat.one_pos b b Nat.one_pos
    (S := 2) (R := 2) (c := c) (f := [1, 2, 3]) (l := []) rfl (by decide)
  have e₁ : chunk g.n 1 (2 / 1) 1 = 1 := by decide
  have e₂ : AlltoallGeneric.selfrecvcount (g.config 1) (2 / 1 / g.n * 1) 1 (2 / 1 % g.n) = 2 := by
    decide
  have h₁ := h₁ rfl (by decide)
  have h₂ := h₂ rfl (by decide)
  rw [e₁] at h₁
  rw [e₂] at h₂
  exact ⟨h₁, h₂⟩

-- ---------------------------------------------------------------------------
-- Narrowed and wrapped counts
-- ---------------------------------------------------------------------------

/-- Counts of `2^31` and more are not exact: four of the code's counts narrow to `int` or wrap as
`size_t`. -/
theorem counts_narrow_or_wrap (b b₁ rb : Buf) (c : Chans) (n : Nat) :
    let g : Team := ⟨2, by decide, by decide⟩
    let c₁ : Chans := fun ch => if ch = (1, 0) then [.frame (b₁.slice 0 (2 ^ 32))] else []
    Runs 0 (FanOutGeneric.send (some b) (2 ^ 31)) { participants := [.fresh 1] } c (-2 ^ 31)
      { participants := [.fresh 1] } ((Act.push (0, 1) (.frame (b.slice 0 (2 ^ 31)))).apply c) ∧
    getTeamPartitionSize (n + 1) 0 (2 ^ 31 * (n + 1)) = -2 ^ 31 ∧
    Runs 0 (AlltoallGeneric.sendrecv (g.config 0) (some b) (2 ^ 32) (some rb) (2 ^ 32) 1)
      (g.state 0) c₁ (0, some rb) (g.state 0) ((Act.pop (1, 0)).apply c₁) ∧
    chunk g.n (2 ^ 63) 1 0 * g.n = 2 ^ 64 ∧
    AlltoallGeneric.selfrecvcount (g.config 0) (1 / g.n * 2 ^ 63) (2 ^ 63) (1 % g.n) = 0 := by
  intro g c₁
  refine ⟨?_, ?_, ?_, by decide, by decide⟩
  · have := FanOutGeneric.run_send (s := { participants := [.fresh 1] }) b (2 ^ 31)
      (h := .fresh 1) rfl
    have e : toInt32 ((2 ^ 31 : Nat) : Int) = -2 ^ 31 := by decide
    unfold Runs
    rw [this]
    refine Proc.Run.head (Proc.next_send _ _ _ _ _) ?_
    simp only [Buf.length_slice, e, List.length_singleton, Nat.reduceAdd, Nat.mod_self]
    exact Proc.Run.refl
  · simp [getTeamPartitionSize, Nat.mul_div_cancel _ n.succ_pos, toInt32]
  · have h := AlltoallGeneric.sendrecv_root_narrows g (by decide) b rb (S := 2 ^ 32)
      (R := 2 ^ 32) Nat.one_pos (Nat.mod_one _) (by decide) (c := c₁) (f := b₁.slice 0 (2 ^ 32)) (l := []) rfl
      (List.ne_nil_of_length_pos (by simp)) (by simp) (by simp only [Buf.length_slice]; decide)
    rwa [Buf.length_slice] at h
