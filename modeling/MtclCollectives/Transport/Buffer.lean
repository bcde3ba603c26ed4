-- SUMMARY: Bytes, frames and the memory behind a buffer pointer: `memcpy` reads and writes as slices and writes.
import Mathlib.Data.List.Basic

/-!
# Buffers

A buffer is the memory its pointer reaches, `Buf := Nat → UInt8`; `Buf.slice` reads bytes at an
offset (a `memcpy` source or a `send`) and `Buf.write` stores them (a `memcpy` destination or a
`receive`).
-/

/-- A run of bytes: a frame's payload, or a range read from a buffer. -/
abbrev Bytes := List UInt8

/-- The memory a buffer pointer `p` gives access to: byte `a` is `*(p + a)`. -/
abbrev Buf := Nat → UInt8

namespace Buf

/-- The `len` bytes at `p + off`. -/
def slice (b : Buf) (off : Nat) : Nat → Bytes
  | 0 => []
  | len + 1 => b off :: slice b (off + 1) len

/-- `memcpy(p + off, src, src.length)`: the bytes of `src` stored from `p + off` on. -/
def write (b : Buf) (off : Nat) (src : Bytes) : Buf :=
  fun a => if off ≤ a then src[a - off]?.getD (b a) else b a

/-- The pointer `p + off`. -/
def shift (b : Buf) (off : Nat) : Buf :=
  fun a => b (off + a)

/-- A buffer holding `l` at its start, and zeros after it. -/
def ofBytes (l : Bytes) : Buf :=
  write (fun _ => 0) 0 l

-- ---------------------------------------------------------------------------
-- Slices
-- ---------------------------------------------------------------------------

@[simp] theorem slice_zero (b : Buf) (off : Nat) : b.slice off 0 = [] := rfl

theorem slice_succ (b : Buf) (off len : Nat) :
    b.slice off (len + 1) = b off :: b.slice (off + 1) len := rfl

@[simp] theorem length_slice (b : Buf) (off len : Nat) : (b.slice off len).length = len := by
  induction len generalizing off with
  | zero => rfl
  | succ len ih => simp [slice_succ, ih]

@[simp] theorem getElem_slice (b : Buf) (off len i : Nat) (hi : i < (b.slice off len).length) :
    (b.slice off len)[i] = b (off + i) := by
  induction len generalizing off i with
  | zero => simp at hi
  | succ len ih =>
    cases i with
    | zero => rfl
    | succ i => simp [slice_succ, ih, Nat.add_assoc, Nat.add_comm 1 i]

/-- Two buffers that agree on a range have the same slice of it. -/
theorem slice_congr {b b' : Buf} {off len : Nat} (h : ∀ a, off ≤ a → a < off + len → b a = b' a) :
    b.slice off len = b'.slice off len :=
  List.ext_getElem (by simp) fun i h₁ _ => by
    simp only [getElem_slice]
    exact h _ (by omega) (by simp at h₁; omega)

/-- A slice splits at any point. -/
theorem slice_add (b : Buf) (off m n : Nat) :
    b.slice off (m + n) = b.slice off m ++ b.slice (off + m) n := by
  induction m generalizing off with
  | zero => simp
  | succ m ih =>
    rw [Nat.add_right_comm, slice_succ, slice_succ, ih]
    simp [Nat.add_assoc, Nat.add_comm 1 m]

@[simp] theorem slice_shift (b : Buf) (off a len : Nat) :
    (b.shift off).slice a len = b.slice (off + a) len := by
  induction len generalizing a with
  | zero => rfl
  | succ len ih => simp [slice_succ, ih, shift, Nat.add_assoc]

-- ---------------------------------------------------------------------------
-- Writes
-- ---------------------------------------------------------------------------

theorem write_apply (b : Buf) (off : Nat) (src : Bytes) (a : Nat) :
    b.write off src a = if off ≤ a then src[a - off]?.getD (b a) else b a := rfl

/-- Bytes outside the written range are untouched. -/
theorem write_apply_of_not_mem {b : Buf} {off : Nat} {src : Bytes} {a : Nat}
    (h : a < off ∨ off + src.length ≤ a) : b.write off src a = b a := by
  rcases h with h | h
  · simp [write_apply, show ¬ off ≤ a by omega]
  · simp [write_apply, show off ≤ a by omega, List.getElem?_eq_none (show src.length ≤ a - off by omega)]

/-- A write is read back by the slice it covers. -/
@[simp] theorem slice_write_self (b : Buf) (off : Nat) (src : Bytes) :
    (b.write off src).slice off src.length = src :=
  List.ext_getElem (by simp) fun i h₁ h₂ => by
    simp [write_apply, Nat.add_sub_cancel_left, List.getElem?_eq_getElem h₂]

/-- A slice disjoint from a write does not see it. -/
theorem slice_write_of_disjoint {b : Buf} {off len woff : Nat} {src : Bytes}
    (h : off + len ≤ woff ∨ woff + src.length ≤ off) :
    (b.write woff src).slice off len = b.slice off len :=
  slice_congr fun _ h₁ h₂ => write_apply_of_not_mem (by omega)

/-- A slice inside a range written with `L` bytes of `b'` reads them from `b'`. -/
theorem slice_write_slice {b b' : Buf} {woff o L d len : Nat} (h : d + len ≤ L) :
    (b.write woff (b'.slice o L)).slice (woff + d) len = b'.slice (o + d) len :=
  List.ext_getElem (by simp) fun i h₁ _ => by
    simp only [length_slice] at h₁
    simp [write_apply, show woff ≤ woff + d + i by omega, show woff + d + i - woff = d + i by omega,
      List.getElem?_eq_getElem (show d + i < (b'.slice o L).length by simp; omega), Nat.add_assoc]

/-- Two writes, the second right after the first, are one write of both. -/
theorem write_append (b : Buf) (off : Nat) (l₁ l₂ : Bytes) :
    (b.write off l₁).write (off + l₁.length) l₂ = b.write off (l₁ ++ l₂) := by
  funext a
  simp only [write_apply]
  by_cases h₁ : off + l₁.length ≤ a
  · rw [if_pos h₁, if_pos (by omega), if_pos (by omega), List.getElem?_append_right (by omega),
      List.getElem?_eq_none (by omega : l₁.length ≤ a - off), Nat.sub_sub]
    rfl
  · rw [if_neg h₁]
    split_ifs with h₂
    · rw [List.getElem?_append_left (by omega)]
    · rfl

@[simp] theorem write_nil (b : Buf) (off : Nat) : b.write off [] = b := by
  funext a; simp [write_apply]

@[simp] theorem slice_ofBytes (l : Bytes) : (ofBytes l).slice 0 l.length = l :=
  slice_write_self _ _ _

-- ---------------------------------------------------------------------------
-- Blocks
-- ---------------------------------------------------------------------------

/-- Consecutive slices of one length tile the slice they span. -/
theorem flatten_slices (b : Buf) (off c k : Nat) :
    ((List.range k).map fun j => b.slice (off + j * c) c).flatten = b.slice off (k * c) := by
  induction k with
  | zero => simp
  | succ k ih =>
    rw [List.range_succ, List.map_append, List.flatten_append, ih, Nat.succ_mul, slice_add]
    simp

theorem length_flatten_blocks {f : Nat → Bytes} {c : Nat} (hf : ∀ j, (f j).length = c) (k : Nat) :
    ((List.range k).map f).flatten.length = k * c := by
  induction k with
  | zero => simp
  | succ k ih => simp [List.range_succ, ih, hf, Nat.succ_mul]

/-- Blocks of one length written one after another are read back one by one. -/
theorem slice_write_blocks (b : Buf) {f : Nat → Bytes} {c : Nat} (hf : ∀ j, (f j).length = c)
    {k r : Nat} (hr : r < k) : (b.write 0 ((List.range k).map f).flatten).slice (r * c) c = f r := by
  induction k with
  | zero => omega
  | succ k ih =>
    rw [List.range_succ, List.map_append, List.flatten_append, List.map_singleton,
      List.flatten_singleton, ← write_append, Nat.zero_add, length_flatten_blocks hf]
    rcases Nat.lt_succ_iff_lt_or_eq.mp hr with hrk | rfl
    · rw [slice_write_of_disjoint (.inl (by rw [← Nat.succ_mul]; exact Nat.mul_le_mul_right c hrk)),
        ih hrk]
    · rw [← hf r, slice_write_self]

end Buf

/-- A non-empty frame's size, returned as an `ssize_t`, is not the end-of-stream `0`. -/
theorem Bytes.length_ne_zero {f : Bytes} (hf : f ≠ []) : (f.length : Int) ≠ 0 := by
  have := List.length_pos.mpr hf
  omega
