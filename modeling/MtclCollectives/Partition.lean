-- SUMMARY: How the rooted collectives split a buffer among the ranks: the chunk rule, the displacements, and the code's three ways of computing a share.
import Mathlib.Tactic.Ring
import Mathlib.Order.Basic

/-!
# Partition arithmetic

Rank `r` gets `chunk n datasize count r` bytes at `displ n datasize count r` (spec §4.2); the
code's three ways of computing a share (a remainder counter, `(i + 1) < rcount`,
`rank < (int)rcount`) each agree with `chunk`.
-/

/-- A value converted to a 32-bit `int`, two's complement. -/
def toInt32 (x : Int) : Int := (x + 2 ^ 31) % 2 ^ 32 - 2 ^ 31

/-- A `size_t` result: arithmetic modulo `2^64`. -/
def toSizeT (x : Nat) : Nat := x % 2 ^ 64

theorem toInt32_of_lt {x : Nat} (h : x < 2 ^ 31) : toInt32 x = x := by
  unfold toInt32; omega

theorem toSizeT_of_lt {x : Nat} (h : x < 2 ^ 64) : toSizeT x = x := Nat.mod_eq_of_lt h

section Partition

variable (n datasize count : Nat)

/-- The share of team rank `r`, in bytes. -/
def chunk (r : Nat) : Nat :=
  count / n * datasize + if r < count % n then datasize else 0

/-- Where the share of rank `r` starts in the packed buffer. -/
def displ : Nat → Nat
  | 0 => 0
  | r + 1 => displ r + chunk n datasize count r

variable {n datasize count}

@[simp] theorem displ_zero : displ n datasize count 0 = 0 := rfl

theorem displ_succ (r : Nat) :
    displ n datasize count (r + 1) = displ n datasize count r + chunk n datasize count r := rfl

theorem displ_one : displ n datasize count 1 = chunk n datasize count 0 := Nat.zero_add _

/-- The displacement in closed form: `r` base shares, and one element for each of the first
`count % n` ranks before `r`. -/
theorem displ_eq (r : Nat) :
    displ n datasize count r = r * (count / n * datasize) + min r (count % n) * datasize := by
  induction r with
  | zero => simp
  | succ r ih =>
    rw [displ_succ, ih, chunk]
    by_cases hr : r < count % n
    · rw [if_pos hr, Nat.min_eq_left (by omega : r + 1 ≤ count % n), Nat.min_eq_left hr.le]
      ring
    · rw [if_neg hr, Nat.min_eq_right (by omega : count % n ≤ r + 1),
        Nat.min_eq_right (by omega : count % n ≤ r)]
      ring

/-- The shares of all `n` ranks tile the whole buffer. -/
theorem displ_self (hn : 0 < n) : displ n datasize count n = count * datasize := by
  rw [displ_eq, Nat.min_eq_right (Nat.mod_lt _ hn).le, ← Nat.mul_assoc, ← Nat.add_mul,
    Nat.div_add_mod]

/-- Displacements grow with the rank. -/
theorem displ_mono {r r' : Nat} (h : r ≤ r') : displ n datasize count r ≤ displ n datasize count r' := by
  induction h with
  | refl => exact le_rfl
  | step _ ih => exact ih.trans (Nat.le_add_right _ _)

/-- The share of each rank, and the shares before it, fit in the buffer. -/
theorem displ_add_chunk_le {r : Nat} (hr : r < n) :
    displ n datasize count r + chunk n datasize count r ≤ count * datasize := by
  rw [← displ_succ, ← displ_self (Nat.zero_lt_of_lt hr)]
  exact displ_mono hr

/-- Shares do not grow with the rank. -/
theorem chunk_antitone {r r' : Nat} (h : r ≤ r') :
    chunk n datasize count r' ≤ chunk n datasize count r := by
  unfold chunk; split_ifs <;> omega

/-- Two shares differ by at most one element. -/
theorem chunk_le_add (r r' : Nat) :
    chunk n datasize count r ≤ chunk n datasize count r' + datasize := by
  unfold chunk; split_ifs <;> omega

/-- Each share is at least the base share. -/
theorem base_le_chunk (r : Nat) : count / n * datasize ≤ chunk n datasize count r := by
  unfold chunk; omega

/-- When there are at least as many elements as ranks, every share is non-empty. -/
theorem chunk_pos (hn : 0 < n) (hc : n ≤ count) (hd : 0 < datasize) (r : Nat) :
    0 < chunk n datasize count r :=
  Nat.lt_of_lt_of_le (Nat.mul_pos (Nat.div_pos hc hn) hd) (base_le_chunk r)

-- ---------------------------------------------------------------------------
-- The code's ways of computing a share
-- ---------------------------------------------------------------------------

/-- One turn of `chunksize = sendcount; if (rcount > 0) { chunksize += datasize; rcount--; }`: the
share and the counter after it. -/
def takeShare (sendcount datasize rcount : Nat) : Nat × Nat :=
  if rcount > 0 then (sendcount + datasize, rcount - 1) else (sendcount, rcount)

/-- The turn for rank `r`, when the counter started at `count % n` and rank `r` is the turn
after `r` others, gives rank `r`'s share. -/
theorem takeShare_eq (r : Nat) :
    takeShare (count / n * datasize) datasize (count % n - r) =
      (chunk n datasize count r, count % n - (r + 1)) := by
  by_cases h : r < count % n
  · simp [takeShare, chunk, h, Nat.sub_pos_of_lt h, Nat.sub_sub]
  · simp [takeShare, chunk, h, Nat.sub_eq_zero_of_le (Nat.le_of_not_lt h),
      Nat.sub_eq_zero_of_le (Nat.le_succ_of_le (Nat.le_of_not_lt h))]

/-- The first turn, for the root. -/
theorem takeShare_eq_zero :
    takeShare (count / n * datasize) datasize (count % n) =
      (chunk n datasize count 0, count % n - 1) :=
  takeShare_eq 0

/-- The root's own share in `GatherGeneric` and `AllGatherGeneric`:
`selfrecvcount = recvcount + (rcount > 0 ? datasize : 0)`. -/
theorem chunk_zero_eq :
    (count / n * datasize + if count % n > 0 then datasize else 0) = chunk n datasize count 0 := by
  unfold chunk; simp

/-- The root loop of `GatherGeneric` and `AllGatherGeneric`: peer `i` has rank `i + 1`, and its
share is tested with `rcount && (i + 1) < rcount`. -/
theorem chunk_succ_eq (i : Nat) :
    (if count % n ≠ 0 ∧ i + 1 < count % n then count / n * datasize + datasize
      else count / n * datasize) = chunk n datasize count (i + 1) := by
  unfold chunk; split_ifs <;> omega

/-- The non-roots' test `rcount && (rank < (int)rcount)` agrees with the chunk rule when
`n ≤ 2^31`. -/
theorem chunk_rank_eq {r : Nat} (hn : n ≤ 2 ^ 31) (hn0 : 0 < n) :
    (if count % n ≠ 0 ∧ (r : Int) < toInt32 ((count % n : Nat) : Int)
      then count / n * datasize + datasize
      else count / n * datasize) = chunk n datasize count r := by
  have hm : count % n < 2 ^ 31 := Nat.lt_of_lt_of_le (Nat.mod_lt _ hn0) hn
  rw [toInt32_of_lt hm]
  unfold chunk; split_ifs <;> omega

/-- `CollectiveImpl::getTeamPartitionSize(buffcount)`: `buffcount / nparticipants`, plus one when
`r && (rank < r)`, in `int`. -/
def getTeamPartitionSize (nparticipants : Nat) (rank : Int) (buffcount : Nat) : Int :=
  let partition := toInt32 ↑(buffcount / nparticipants)
  let r := toInt32 ↑(buffcount % nparticipants)
  if r ≠ 0 ∧ rank < r then toInt32 (partition + 1) else partition

/-- `getTeamPartitionSize` counts the elements of the chunk rule whenever that count fits in an
`int`. -/
theorem getTeamPartitionSize_eq {r : Nat} (hn : n ≤ 2 ^ 31) (hn0 : 0 < n)
    (hr : chunk n 1 count r < 2 ^ 31) :
    getTeamPartitionSize n r count * datasize = chunk n datasize count r := by
  have hm : count % n < 2 ^ 31 := Nat.lt_of_lt_of_le (Nat.mod_lt _ hn0) hn
  have hb : count / n < 2 ^ 31 := Nat.lt_of_le_of_lt (by simpa using @base_le_chunk n 1 count r) hr
  unfold getTeamPartitionSize chunk at *
  simp only [toInt32_of_lt hm, toInt32_of_lt hb]
  by_cases h : r < count % n
  · have h₁ : count / n + 1 < 2 ^ 31 := by simpa [h] using hr
    rw [if_pos (by omega), if_pos h, ← Nat.cast_succ, toInt32_of_lt h₁]
    push_cast; ring
  · rw [if_neg (by omega), if_neg h]
    push_cast; ring

end Partition
