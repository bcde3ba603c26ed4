-- SUMMARY: Which bytes the rooted collectives read and write: on buffers that agree on [0, sendsize) and [0, recvsize), two calls take the same steps over every answer of the transport, never crash, and write the same bytes, all inside [0, recvsize).
import MtclCollectives.Lockstep
import MtclCollectives.Collectives.Broadcast
import MtclCollectives.Collectives.AllGather
import MtclCollectives.Collectives.Alltoall

/-!
# Bounds

A call is `Confined` when it touches its buffers only inside `[0, sendsize)` and
`[0, recvsize)` and never crashes, stated with two runs in lockstep; each loop gets a lockstep
lemma and each rooted `sendrecv` is assembled from them after its validation.
-/

open CollM

/-- A call `f sendbuff recvbuff` with `L` handles touches only `[0, S)` of its send buffer and
`[0, R)` of its receive buffer: two calls on buffers agreeing there run in lockstep. -/
def Confined (L S R : Nat) (f : Option Buf → Option Buf → CollM (Int × Option Buf)) : Prop :=
  ∀ b₁ b₂ rb₁ rb₂ : Buf, (∀ a < S, b₁ a = b₂ a) → (∀ a < R, rb₁ a = rb₂ a) →
    Lockstep (Len L) (f (some b₁) (some rb₁)) (f (some b₂) (some rb₂))
      fun x y => x.1 = y.1 ∧ WriteIn 0 R rb₁ rb₂ x.2 y.2

namespace CollM

/-- A failed validation: `errno` set, `ret` returned, the receive buffer untouched. -/
theorem fail_lockstep {γ : Type} {L lo hi : Nat} (e : Nat) (ret : γ) (rb₁ rb₂ : Buf) :
    Lockstep (Len L) (setErrno e >>= fun _ => pure (ret, some rb₁))
      (setErrno e >>= fun _ => pure (ret, some rb₂))
      fun x y => x.1 = y.1 ∧ WriteIn lo hi rb₁ rb₂ x.2 y.2 :=
  .bind_eq (.setErrno_len e) fun _ => .pure ⟨rfl, .refl _ _ _ _⟩

variable {γ δ : Type} {L S : Nat} {b₁ b₂ : Buf} {Q : γ → δ → Prop}

/-- A send of `c` bytes of the send buffer from `off`, inside its first `S`, then `K`. -/
theorem sendSlice_lockstep {off c : Nat} {K₁ : Int → CollM γ} {K₂ : Int → CollM δ} (h : Handle)
    (hb : ∀ a < S, b₁ a = b₂ a) (hc : off + c ≤ S) (hK : ∀ r, Lockstep (Len L) (K₁ r) (K₂ r) Q) :
    Lockstep (Len L) (readPtr (some b₁) off c >>= fun d => StateT.lift (h.send d) >>= K₁)
      (readPtr (some b₂) off c >>= fun d => StateT.lift (h.send d) >>= K₂) Q := by
  refine .bind (.readPtr fun a _ ha => hb a (by omega)) fun d _ ⟨hd, _⟩ => ?_
  subst hd
  exact .bind_eq (.handleSend h d) hK

/-- The root's copy of the first `c` bytes of its send buffer to the start of its receive
buffer, inside the first `S` and `R` bytes, then `K`. -/
theorem copyOwn_lockstep {R c : Nat} {rb₁ rb₂ : Buf} {K₁ : Option Buf → CollM γ}
    {K₂ : Option Buf → CollM δ} (hb : ∀ a < S, b₁ a = b₂ a) (hcS : c ≤ S) (hcR : c ≤ R)
    (hK : ∀ d : Bytes, WriteIn 0 R rb₁ rb₂ (some (rb₁.write 0 d)) (some (rb₂.write 0 d)) →
      Lockstep (Len L) (K₁ (some (rb₁.write 0 d))) (K₂ (some (rb₂.write 0 d))) Q) :
    Lockstep (Len L) (readPtr (some b₁) 0 c >>= fun d => writePtr (some rb₁) 0 d >>= K₁)
      (readPtr (some b₂) 0 c >>= fun d => writePtr (some rb₂) 0 d >>= K₂) Q := by
  refine .bind (.readPtr fun a _ ha => hb a (by omega)) fun d _ ⟨hd, hlen⟩ => ?_
  subst hd
  refine .bind (.writePtr _ _ _ _) fun _ _ ⟨h₁, h₂⟩ => ?_
  subst h₁ h₂
  exact hK d (.write le_rfl (by omega))

end CollM

/-- The window of rank `r < n` lies inside the `S` bytes the partition cuts. -/
theorem displ_add_chunk_le_of_mod {n ds S r : Nat} (hr : r < n) (hS : S % ds = 0) :
    displ n ds (S / ds) r + chunk n ds (S / ds) r ≤ S := by
  have := @displ_add_chunk_le n ds (S / ds) r hr
  rwa [Nat.div_mul_cancel (Nat.dvd_of_mod_eq_zero hS)] at this

/-- The root's part is at most the `S` bytes of one rank's buffer. -/
theorem chunk_zero_le {n ds S : Nat} (hn : 0 < n) (hS : S % ds = 0) :
    chunk n ds (S / ds) 0 ≤ S := by
  simpa using displ_add_chunk_le_of_mod hn hS

/-- A confined call never crashes: every `participants.at(i)` is in range, no division is by
zero and no copy goes through a null pointer. -/
theorem Confined.not_canCrash {L S R : Nat} {f : Option Buf → Option Buf → CollM (Int × Option Buf)}
    (h : Confined L S R f) (b rb : Buf) {s : State} (hs : s.participants.length = L) :
    ¬((f (some b) (some rb)).run s).CanCrash :=
  (h b b rb rb (fun _ _ => rfl) fun _ _ => rfl).not_canCrash hs

-- ---------------------------------------------------------------------------
-- Scatter
-- ---------------------------------------------------------------------------

namespace ScatterGeneric

/-- From iteration `i` on, the root's send loop reads the share of each rank `j + 1` at
`displ (j + 1)`, inside the `count · datasize` bytes of the send buffer. -/
theorem sendLoop_lockstep {n ds count : Nat} {b₁ b₂ : Buf} (hb : ∀ a < count * ds, b₁ a = b₂ a)
    (i k : Nat) (hik : i + 1 + k = n) :
    Lockstep (Len (n - 1))
      (sendLoop (some b₁) (count / n * ds) ds i k (count % n - (i + 1)) (displ n ds count (i + 1)))
      (sendLoop (some b₂) (count / n * ds) ds i k (count % n - (i + 1)) (displ n ds count (i + 1)))
      Eq := by
  induction k generalizing i with
  | zero => exact .pure rfl
  | succ k ih =>
    have hfit := @displ_add_chunk_le n ds count (i + 1) (by omega)
    simp only [sendLoop, takeShare_eq]
    refine .bind_eq (.participantsAt (by omega)) fun h => sendSlice_lockstep h hb hfit fun r => ?_
    refine .ite (fun _ => .bind_eq (.setErrno_len _) fun _ => .pure rfl) fun _ => ?_
    simpa only [← displ_succ] using ih (i + 1) (by omega)

theorem sendrecv_confined (g : Team) (r : Nat) {S R ds : Nat} (hds : 0 < ds) :
    Confined (if r = 0 then g.n - 1 else 1) S R
      fun b rb => sendrecv (g.config r) b S rb R ds := by
  intro b₁ b₂ rb₁ rb₂ hb hrb
  unfold sendrecv
  simp only [Option.isNone_some, Bool.false_eq_true, ↓reduceIte, Team.config_root,
    Team.config_nparticipants, pure_bind, takeShare_eq_zero, ← displ_one]
  rcases Nat.eq_zero_or_pos r with rfl | hr
  · simp only [beq_self_eq_true, ↓reduceIte]
    refine .bind (.sizeMod hds) fun x _ ⟨hxy, hx⟩ => ?_
    subst hxy hx
    refine .ite (fun _ => fail_lockstep _ _ _ _) fun hS => ?_
    refine .ite (fun _ => fail_lockstep _ _ _ _) fun hR => ?_
    have hSds : S / ds * ds = S := Nat.div_mul_cancel (Nat.dvd_of_mod_eq_zero (not_not.mp hS))
    have hfit : displ g.n ds (S / ds) 1 ≤ S := by
      rw [displ_one]; exact chunk_zero_le g.zero_lt (not_not.mp hS)
    refine copyOwn_lockstep (R := R) hb hfit (by omega) fun d hw => ?_
    refine .bind_eq (sendLoop_lockstep (fun a ha => hb a (by omega)) 0 (g.n - 1)
      (by have := g.one_le; omega)) fun ok => ?_
    exact .ite (fun _ => .pure ⟨rfl, hw⟩) fun _ => .pure ⟨rfl, hw⟩
  · simp only [show (r == 0) = false by simpa using hr.ne', Bool.false_eq_true, ↓reduceIte,
      hr.ne']
    exact receiveShare_lockstep one_pos rb₁ rb₂ R

end ScatterGeneric

-- ---------------------------------------------------------------------------
-- Gather and AllGather
-- ---------------------------------------------------------------------------

namespace GatherGeneric

/-- From iteration `i` on, the root's receive loop writes the share of each rank `j + 1` at
`displ (j + 1)`, inside the `count · datasize` bytes of the receive buffer. -/
theorem recvLoop_lockstep {n ds count : Nat} (i k : Nat) (hik : i + 1 + k = n) (rb₁ rb₂ : Buf) :
    Lockstep (Len (n - 1))
      (recvLoop (count / n * ds) ds (count % n) i k (displ n ds count (i + 1)) (some rb₁))
      (recvLoop (count / n * ds) ds (count % n) i k (displ n ds count (i + 1)) (some rb₂))
      fun x y => x.1 = y.1 ∧ WriteIn 0 (count * ds) rb₁ rb₂ x.2 y.2 := by
  induction k generalizing i rb₁ rb₂ with
  | zero => exact .pure ⟨rfl, .refl _ _ _ _⟩
  | succ k ih =>
    have hfit := @displ_add_chunk_le n ds count (i + 1) (by omega)
    simp only [recvLoop, chunk_succ_eq]
    refine .bind (receiveFromHandle_lockstep (by omega) rb₁ rb₂ _ _)
      fun ⟨r, o₁⟩ ⟨_, o₂⟩ ⟨hr, hw⟩ => ?_
    simp only at hr
    subst hr
    have hw := hw.mono (Nat.zero_le _) hfit
    refine .ite (fun _ => .pure ⟨rfl, hw⟩) fun _ => ?_
    obtain ⟨c₁, c₂, rfl, rfl, -⟩ := id hw
    simpa only [← displ_succ] using
      (ih (i + 1) (by omega) c₁ c₂).mono fun _ _ ⟨h, hw'⟩ => ⟨h, hw.trans hw'⟩

theorem sendrecv_confined (g : Team) (r : Nat) {S R ds : Nat} (hds : 0 < ds) :
    Confined (if r = 0 then g.n - 1 else 1) S R
      fun b rb => sendrecv (g.config r) b S rb R ds := by
  intro b₁ b₂ rb₁ rb₂ hb hrb
  unfold sendrecv
  simp only [Option.isNone_some, Bool.false_eq_true, ↓reduceIte, Team.config_root,
    Team.config_nparticipants, pure_bind, chunk_zero_eq, ← displ_one]
  refine .bind (.sizeMod hds) fun x _ ⟨hxy, hx⟩ => ?_
  subst hxy hx
  refine .ite (fun _ => fail_lockstep _ _ _ _) fun hR => ?_
  have hRds : R / ds * ds = R := Nat.div_mul_cancel (Nat.dvd_of_mod_eq_zero (not_not.mp hR))
  rcases Nat.eq_zero_or_pos r with rfl | hr
  · simp only [beq_self_eq_true, ↓reduceIte]
    refine .ite (fun _ => fail_lockstep _ _ _ _) fun hS => ?_
    have hfit : displ g.n ds (R / ds) 1 ≤ R := by
      rw [displ_one]; exact chunk_zero_le g.zero_lt (not_not.mp hR)
    refine copyOwn_lockstep (R := R) hb (by omega) hfit fun d hw => ?_
    refine .bind (recvLoop_lockstep 0 (g.n - 1) (by have := g.one_le; omega) _ _)
      fun ⟨x₁, o₁⟩ ⟨x₂, o₂⟩ ⟨h, hw'⟩ => ?_
    simp only at h
    subst h
    have hw := hw.trans (hRds ▸ hw')
    cases x₁ with
    | some v => exact .pure ⟨rfl, hw⟩
    | none => exact .pure ⟨rfl, hw⟩
  · simp only [show (r == 0) = false by simpa using hr.ne', Bool.false_eq_true, ↓reduceIte,
      hr.ne']
    refine .ite (fun _ => fail_lockstep _ _ _ _) fun hS => ?_
    refine .bind_eq (.participantsAt one_pos) fun h => sendSlice_lockstep h hb (by omega) fun _ => ?_
    exact .ite (fun _ => fail_lockstep _ _ _ _) fun _ => .pure ⟨rfl, .refl _ _ _ _⟩

end GatherGeneric

namespace AllGatherGeneric

theorem sendrecv_confined (g : Team) (r : Nat) {S R ds : Nat} (hds : 0 < ds) :
    Confined (if r = 0 then g.n - 1 else 1) S R
      fun b rb => sendrecv (g.config r) b S rb R ds := by
  intro b₁ b₂ rb₁ rb₂ hb hrb
  unfold sendrecv
  simp only [Option.isNone_some, Bool.false_eq_true, ↓reduceIte, Team.config_root,
    Team.config_nparticipants, pure_bind, chunk_zero_eq, ← displ_one]
  refine .bind (.sizeMod hds) fun x _ ⟨hxy, hx⟩ => ?_
  subst hxy hx
  refine .ite (fun _ => fail_lockstep _ _ _ _) fun hR => ?_
  have hRds : R / ds * ds = R := Nat.div_mul_cancel (Nat.dvd_of_mod_eq_zero (not_not.mp hR))
  rcases Nat.eq_zero_or_pos r with rfl | hr
  · simp only [beq_self_eq_true, ↓reduceIte]
    refine .ite (fun _ => fail_lockstep _ _ _ _) fun hS => ?_
    have hfit : displ g.n ds (R / ds) 1 ≤ R := by
      rw [displ_one]; exact chunk_zero_le g.zero_lt (not_not.mp hR)
    refine copyOwn_lockstep (R := R) hb (by omega) hfit fun d hw => ?_
    refine .bind (GatherGeneric.recvLoop_lockstep 0 (g.n - 1) (by have := g.one_le; omega) _ _)
      fun ⟨x₁, o₁⟩ ⟨x₂, o₂⟩ ⟨h, hw'⟩ => ?_
    simp only at h
    subst h
    have hw := hw.trans (hRds ▸ hw')
    cases x₁ with
    | some v => exact .pure ⟨rfl, hw⟩
    | none =>
      obtain ⟨c₁, c₂, rfl, rfl, -⟩ := id hw
      refine .bind .get fun s _ ⟨hs, _⟩ => ?_
      subst hs
      refine .bind_eq (sendEach_lockstep (hw.agree_of hrb) _) fun _ => ?_
      exact .ite (fun _ => .pure ⟨rfl, hw⟩) fun _ => .pure ⟨rfl, hw⟩
  · simp only [show (r == 0) = false by simpa using hr.ne', Bool.false_eq_true, ↓reduceIte,
      hr.ne']
    refine .ite (fun _ => fail_lockstep _ _ _ _) fun hS => ?_
    refine .bind_eq (.participantsAt one_pos) fun h => sendSlice_lockstep h hb (by omega) fun _ => ?_
    refine .ite (fun _ => fail_lockstep _ _ _ _) fun _ => ?_
    exact receiveRest_lockstep one_pos rb₁ rb₂ R _

end AllGatherGeneric

-- ---------------------------------------------------------------------------
-- AllToAll
-- ---------------------------------------------------------------------------

namespace AlltoallGeneric

/-- From iteration `i` on, the staging loop writes the frame of each rank `j + 1` inside
`[j · S, (j + 1) · S)`, within the `S · (n - 1)` bytes of the staging buffer. -/
theorem stageLoop_lockstep {n S : Nat} (i k : Nat) (hik : i + k = n - 1) (a₁ a₂ : Buf) :
    Lockstep (Len (n - 1)) (stageLoop S i k (some a₁)) (stageLoop S i k (some a₂))
      fun x y => x.1 = y.1 ∧ WriteIn 0 (S * (n - 1)) a₁ a₂ x.2 y.2 := by
  induction k generalizing i a₁ a₂ with
  | zero => exact .pure ⟨rfl, .refl _ _ _ _⟩
  | succ k ih =>
    have hfit : i * S + S ≤ S * (n - 1) := calc
      i * S + S = (i + 1) * S := (Nat.succ_mul i S).symm
      _ ≤ (n - 1) * S := Nat.mul_le_mul_right S (by omega)
      _ = S * (n - 1) := Nat.mul_comm _ _
    simp only [stageLoop]
    refine .bind (receiveFromHandle_lockstep (by omega) a₁ a₂ _ _)
      fun ⟨r, o₁⟩ ⟨_, o₂⟩ ⟨hr, hw⟩ => ?_
    simp only at hr
    subst hr
    have hw := hw.mono (Nat.zero_le _) hfit
    refine .ite (fun _ => .pure ⟨rfl, hw⟩) fun _ => ?_
    obtain ⟨c₁, c₂, rfl, rfl, -⟩ := id hw
    exact (ih (i + 1) (by omega) c₁ c₂).mono fun _ _ ⟨h, hw'⟩ => ⟨h, hw.trans hw'⟩

theorem length_flatten_range' {len : Nat} (f : Nat → Bytes) (hf : ∀ t, (f t).length = len)
    (j k : Nat) : ((List.range' j k).map f).flatten.length = len * k := by
  induction k generalizing j with
  | zero => rfl
  | succ k ih => simp [List.range'_succ, ih, hf, Nat.mul_succ, Nat.add_comm]

/-- `k` runs of `chunksize` bytes from the staged buffers `j, …, j + k - 1`, read inside
`[0, (j + k) · S)` and written at `offset`. -/
theorem gatherChunk_lockstep {I : State → Prop} {S displ chunksize : Nat} {a₁ a₂ : Buf}
    (j k offset : Nat) (hd : displ + chunksize ≤ S) (ha : ∀ x < (j + k) * S, a₁ x = a₂ x)
    (t₁ t₂ : Buf) :
    Lockstep I (gatherChunk (some a₁) S displ chunksize j k offset (some t₁))
      (gatherChunk (some a₂) S displ chunksize j k offset (some t₂))
      fun o₁ o₂ => ∃ d : Bytes, d.length = chunksize * k ∧ o₁ = some (t₁.write offset d) ∧
        o₂ = some (t₂.write offset d) := fun s hs => by
  rw [run_gatherChunk, run_gatherChunk]
  refine .done ⟨rfl, hs, _, ?_, rfl, ?_⟩
  · exact length_flatten_range' _ (fun _ => Buf.length_slice _ _ _) j k
  · refine congrArg (fun d => some (t₂.write offset d)) (congrArg List.flatten
      (List.map_congr_left fun t ht => Buf.slice_congr fun x _ hx => (ha x ?_).symm))
    have ht := (List.mem_range'_1.mp ht).2
    calc x < t * S + S := by omega
      _ = (t + 1) * S := (Nat.succ_mul t S).symm
      _ ≤ (j + k) * S := Nat.mul_le_mul_right S ht

/-- From iteration `i` on, the assembly loop stays in `[0, S)` of the send buffer, `[0, S · (n - 1))`
of the staging buffer and `[0, chunk 0 · n)` of the receive buffer. -/
theorem sendLoop_lockstep {n S ds : Nat} {b₁ b₂ a₁ a₂ : Buf} (hS : S % ds = 0)
    (hb : ∀ x < S, b₁ x = b₂ x) (ha : ∀ x < S * (n - 1), a₁ x = a₂ x) (i k : Nat) (hik : i + k = n)
    (rb₁ rb₂ : Buf) :
    Lockstep (Len (n - 1))
      (sendLoop (some b₁) (some a₁) n S (S / ds / n * ds) ds i k (S / ds % n - i)
        (displ n ds (S / ds) i) (some rb₁))
      (sendLoop (some b₂) (some a₂) n S (S / ds / n * ds) ds i k (S / ds % n - i)
        (displ n ds (S / ds) i) (some rb₂))
      fun x y => x.1 = y.1 ∧ WriteIn 0 (chunk n ds (S / ds) 0 * n) rb₁ rb₂ x.2 y.2 := by
  induction k generalizing i rb₁ rb₂ with
  | zero => exact .pure ⟨rfl, .refl _ _ _ _⟩
  | succ k ih =>
    have hfit := displ_add_chunk_le_of_mod (by omega : i < n) hS
    have ha' : ∀ x < (0 + (n - 1)) * S, a₁ x = a₂ x := fun x hx =>
      ha x (by rwa [Nat.zero_add, Nat.mul_comm] at hx)
    simp only [sendLoop, takeShare_eq, ← displ_succ]
    refine .bind (.readPtr fun x _ hx => hb x (by omega)) fun d _ ⟨hd, hlen⟩ => ?_
    subst hd
    rcases Nat.eq_zero_or_pos i with rfl | hi
    · simp only [↓reduceIte, ne_eq, not_true_eq_false, pure_bind]
      refine .bind (.writePtr _ _ _ _) fun o₁ o₂ ⟨h₁, h₂⟩ => ?_
      subst h₁ h₂
      refine .bind (gatherChunk_lockstep 0 (n - 1) _ hfit ha' _ _) fun o₁ o₂ ⟨d', hd', h₁, h₂⟩ => ?_
      subst h₁ h₂
      have hcn : chunk n ds (S / ds) 0 * n = chunk n ds (S / ds) 0 * (n - 1) + chunk n ds (S / ds) 0 := by
        rw [← Nat.mul_succ, Nat.succ_eq_add_one, Nat.sub_add_cancel (by omega)]
      have hw : WriteIn 0 (chunk n ds (S / ds) 0 * n) rb₁ rb₂
          (some ((rb₁.write 0 d).write (chunk n ds (S / ds) 0) d'))
          (some ((rb₂.write 0 d).write (chunk n ds (S / ds) 0) d')) :=
        (WriteIn.write le_rfl (by omega)).trans (.write (Nat.zero_le _) (by omega))
      exact (ih 1 (by omega) _ _).mono fun _ _ ⟨h, hw'⟩ => ⟨h, hw.trans hw'⟩
    · simp only [hi.ne', ↓reduceIte, ne_eq, not_false_eq_true, pure_bind]
      refine .bind (.writePtr _ _ _ _) fun o₁ o₂ ⟨h₁, h₂⟩ => ?_
      subst h₁ h₂
      refine .bind (gatherChunk_lockstep 0 (n - 1) _ hfit ha' _ _) fun o₁ o₂ ⟨d', _, h₁, h₂⟩ => ?_
      subst h₁ h₂
      refine .bind_eq (.participantsAt (by omega)) fun h => ?_
      refine .bind (.readPtr fun _ _ _ => rfl) fun e _ ⟨he, _⟩ => ?_
      subst he
      refine .bind_eq (.handleSend h e) fun _ => ?_
      exact .ite (fun _ => fail_lockstep _ _ _ _) fun _ => ih (i + 1) (by omega) rb₁ rb₂

/-- A write of `src` at `off` over buffers that agree below `off` leaves them agreeing below
`off + src.length`. -/
theorem write_apply_agree {b₁ b₂ : Buf} {off : Nat} {src : Bytes} {a : Nat}
    (hb : a < off → b₁ a = b₂ a) (ha : a < off + src.length) :
    b₁.write off src a = b₂.write off src a := by
  by_cases h : a < off
  · rw [Buf.write_apply_of_not_mem (.inl h), Buf.write_apply_of_not_mem (.inl h), hb h]
  · simp only [Buf.write_apply, if_pos (Nat.le_of_not_lt h),
      List.getElem?_eq_getElem (show a - off < src.length by omega), Option.getD_some]

/-- The root of `AlltoallGeneric` keeps to the buffers it allocates: `allsendbuff` and each
`chunkbuff`. -/
structure RootBuffers (n S ds : Nat) : Prop where
  /-- The staging loop writes the staging buffer only inside `[0, S · (n - 1))`. -/
  staging_writes : ∀ a₁ a₂ : Buf,
    Lockstep (Len (n - 1)) (stageLoop S 0 (n - 1) (some a₁)) (stageLoop S 0 (n - 1) (some a₂))
      fun x y => x.1 = y.1 ∧ WriteIn 0 (S * (n - 1)) a₁ a₂ x.2 y.2
  /-- The assembly loop reads the send buffer only inside `[0, S)` and the staging buffer only
  inside `[0, S · (n - 1))`, and writes the receive buffer only inside the root's part. -/
  staging_reads : ∀ b₁ b₂ a₁ a₂ rb₁ rb₂ : Buf, (∀ x < S, b₁ x = b₂ x) →
    (∀ x < S * (n - 1), a₁ x = a₂ x) →
    Lockstep (Len (n - 1))
      (sendLoop (some b₁) (some a₁) n S (S / ds / n * ds) ds 0 n (S / ds % n) 0 (some rb₁))
      (sendLoop (some b₂) (some a₂) n S (S / ds / n * ds) ds 0 n (S / ds % n) 0 (some rb₂))
      fun x y => x.1 = y.1 ∧ WriteIn 0 (chunk n ds (S / ds) 0 * n) rb₁ rb₂ x.2 y.2
  /-- Once its first `chunk i` bytes are copied, the chunk buffer of rank `i` is written by
  `gatherChunk` only inside `[chunk i, chunk i · n)`, and all of `[0, chunk i · n)` is written. -/
  chunkbuff_writes : ∀ i < n, ∀ a t₁ t₂ : Buf, (∀ x < chunk n ds (S / ds) i, t₁ x = t₂ x) →
    Lockstep (Len (n - 1))
      (gatherChunk (some a) S (displ n ds (S / ds) i) (chunk n ds (S / ds) i) 0 (n - 1)
        (chunk n ds (S / ds) i) (some t₁))
      (gatherChunk (some a) S (displ n ds (S / ds) i) (chunk n ds (S / ds) i) 0 (n - 1)
        (chunk n ds (S / ds) i) (some t₂))
      fun o₁ o₂ => WriteIn (chunk n ds (S / ds) i) (chunk n ds (S / ds) i * n) t₁ t₂ o₁ o₂ ∧
        ∀ c₁ c₂, o₁ = some c₁ → o₂ = some c₂ → ∀ x < chunk n ds (S / ds) i * n, c₁ x = c₂ x
  /-- The chunk buffer is sent whole: `chunksize * nparticipants` does not wrap. -/
  chunkbuff_size : ∀ i, toSizeT (chunk n ds (S / ds) i * n) = chunk n ds (S / ds) i * n

theorem rootBuffers {n S ds : Nat} (hn : 0 < n) (hS : S % ds = 0) (hfit : S * n < 2 ^ 64) :
    RootBuffers n S ds where
  staging_writes := stageLoop_lockstep 0 (n - 1) (Nat.zero_add _)
  staging_reads b₁ b₂ a₁ a₂ rb₁ rb₂ hb ha := by
    simpa only [Nat.sub_zero, displ_zero] using sendLoop_lockstep hS hb ha 0 n (Nat.zero_add _) rb₁ rb₂
  chunkbuff_writes i hi a t₁ t₂ ht := by
    have hcn : chunk n ds (S / ds) i * n = chunk n ds (S / ds) i * (n - 1) + chunk n ds (S / ds) i := by
      rw [← Nat.mul_succ, Nat.succ_eq_add_one, Nat.sub_add_cancel hn]
    refine (gatherChunk_lockstep 0 (n - 1) _ (displ_add_chunk_le_of_mod hi hS)
      (fun _ _ => rfl) t₁ t₂).mono fun o₁ o₂ ⟨d, hd, h₁, h₂⟩ => ?_
    subst h₁ h₂
    refine ⟨.write le_rfl (by omega), fun c₁ c₂ h₁ h₂ x hx => ?_⟩
    cases h₁; cases h₂
    exact write_apply_agree (ht x) (by omega)
  chunkbuff_size i := toSizeT_of_lt (Nat.lt_of_le_of_lt (Nat.mul_le_mul_right _
    ((chunk_antitone (Nat.zero_le i)).trans (chunk_zero_le hn hS))) hfit)

theorem sendrecv_confined (g : Team) (r : Nat) {S R ds : Nat} (hds : 0 < ds)
    (hfit : S * g.n < 2 ^ 64) :
    Confined (if r = 0 then g.n - 1 else 1) S R
      fun b rb => sendrecv (g.config r) b S rb R ds := by
  intro b₁ b₂ rb₁ rb₂ hb hrb
  unfold sendrecv
  simp only [Option.isNone_some, Bool.false_eq_true, ↓reduceIte, Team.config_root,
    Team.config_nparticipants, pure_bind]
  refine .bind (.sizeMod hds) fun x _ ⟨hxy, hx⟩ => ?_
  subst hxy hx
  refine .ite (fun _ => fail_lockstep _ _ _ _) fun hS => ?_
  have hS := not_not.mp hS
  refine .ite (fun _ => fail_lockstep _ _ _ _) fun hR => ?_
  rcases Nat.eq_zero_or_pos r with rfl | hr
  · simp only [beq_self_eq_true, ↓reduceIte]
    have hfit' : chunk g.n ds (S / ds) 0 * g.n < 2 ^ 64 :=
      Nat.lt_of_le_of_lt (Nat.mul_le_mul_right _ (chunk_zero_le g.zero_lt hS)) hfit
    rw [selfrecvcount_eq hfit'] at hR ⊢
    refine .bind (stageLoop_lockstep 0 (g.n - 1) (Nat.zero_add _) newBuf newBuf)
      fun ⟨x₁, o₁⟩ ⟨x₂, o₂⟩ ⟨h, hw⟩ => ?_
    simp only at h
    subst h
    cases x₁ with
    | some v => exact .pure ⟨rfl, .refl _ _ _ _⟩
    | none =>
      obtain ⟨c₁, c₂, rfl, rfl, hag, -⟩ := hw
      obtain rfl : c₁ = c₂ := funext fun a => hag a rfl
      have hsend := sendLoop_lockstep hS hb (fun _ _ => rfl : ∀ x < S * (g.n - 1), c₁ x = c₁ x) 0 g.n
        (Nat.zero_add _) rb₁ rb₂
      rw [Nat.sub_zero, displ_zero] at hsend
      refine .bind hsend fun ⟨ok, o₁⟩ ⟨_, o₂⟩ ⟨h, hw⟩ => ?_
      simp only at h
      subst h
      have hw := hw.mono le_rfl (Nat.le_of_not_lt hR)
      exact .ite (fun _ => .pure ⟨rfl, hw⟩) fun _ => .pure ⟨rfl, hw⟩
  · simp only [show (r == 0) = false by simpa using hr.ne', Bool.false_eq_true, ↓reduceIte,
      hr.ne']
    refine .bind_eq (.participantsAt one_pos) fun h => sendSlice_lockstep h hb (by omega) fun _ => ?_
    refine .ite (fun _ => fail_lockstep _ _ _ _) fun _ => ?_
    exact receiveRest_lockstep one_pos rb₁ rb₂ R _

end AlltoallGeneric

-- ---------------------------------------------------------------------------
-- The rooted collectives
-- ---------------------------------------------------------------------------

/-- The rooted collectives stay inside the buffers they are given: for every rank and
`datasize > 0` each `sendrecv` is `Confined`, the all-to-all one when `sendsize · n < 2^64`. -/
theorem rooted_calls_in_bounds (g : Team) (r : Nat) {S R ds : Nat} (hds : 0 < ds) :
    Confined (if r = 0 then g.n - 1 else 1) S R
        (fun b rb => ScatterGeneric.sendrecv (g.config r) b S rb R ds) ∧
      Confined (if r = 0 then g.n - 1 else 1) S R
        (fun b rb => GatherGeneric.sendrecv (g.config r) b S rb R ds) ∧
      Confined (if r = 0 then g.n - 1 else 1) S R
        (fun b rb => AllGatherGeneric.sendrecv (g.config r) b S rb R ds) ∧
      (S * g.n < 2 ^ 64 →
        Confined (if r = 0 then g.n - 1 else 1) S R
          (fun b rb => AlltoallGeneric.sendrecv (g.config r) b S rb R ds) ∧
        (S % ds = 0 → AlltoallGeneric.RootBuffers g.n S ds)) :=
  ⟨ScatterGeneric.sendrecv_confined g r hds, GatherGeneric.sendrecv_confined g r hds,
    AllGatherGeneric.sendrecv_confined g r hds, fun hfit =>
      ⟨AlltoallGeneric.sendrecv_confined g r hds hfit,
        fun hS => AlltoallGeneric.rootBuffers g.zero_lt hS hfit⟩⟩

/-- The root of a team of two, with `datasize = 1` and buffers of two bytes. -/
theorem rooted_calls_in_bounds_two_ranks :
    let g : Team := ⟨2, by decide, by decide⟩
    0 < 1 ∧
    Confined (if 0 = 0 then g.n - 1 else 1) 2 2
        (fun b rb => ScatterGeneric.sendrecv (g.config 0) b 2 rb 2 1) ∧
      Confined (if 0 = 0 then g.n - 1 else 1) 2 2
        (fun b rb => GatherGeneric.sendrecv (g.config 0) b 2 rb 2 1) ∧
      Confined (if 0 = 0 then g.n - 1 else 1) 2 2
        (fun b rb => AllGatherGeneric.sendrecv (g.config 0) b 2 rb 2 1) ∧
      (2 * g.n < 2 ^ 64 →
        Confined (if 0 = 0 then g.n - 1 else 1) 2 2
          (fun b rb => AlltoallGeneric.sendrecv (g.config 0) b 2 rb 2 1) ∧
        (2 % 1 = 0 → AlltoallGeneric.RootBuffers g.n 2 1)) :=
  ⟨Nat.one_pos, rooted_calls_in_bounds _ 0 Nat.one_pos⟩

-- ---------------------------------------------------------------------------
-- What validation misses
-- ---------------------------------------------------------------------------

/-- Validation misses `datasize = 0`, which crashes at `% datasize`, and the `BroadcastGeneric` root's
`recvsize`, beyond which it writes. -/
theorem validation_misses_datasize_and_recvsize (g : Team) (r : Nat) (b rb : Buf) (S R : Nat)
    (s : State) :
    (ScatterGeneric.sendrecv (g.config 0) (some b) S (some rb) R 0).run s = .crash ∧
    (GatherGeneric.sendrecv (g.config r) (some b) S (some rb) R 0).run s = .crash ∧
    (AllGatherGeneric.sendrecv (g.config r) (some b) S (some rb) R 0).run s = .crash ∧
    (AlltoallGeneric.sendrecv (g.config r) (some b) S (some rb) R 0).run s = .crash ∧
    Proc.Emits ((BroadcastGeneric.sendrecv (g.config 0) (some b) S (some rb) R).run (g.state 0))
      ((List.range (g.n - 1)).map fun i => (i + 1, b.slice 0 S))
      (((S : Int), some (rb.write 0 (b.slice 0 S))), g.state 0) ∧
    ∀ a, R ≤ a → a < S → rb.write 0 (b.slice 0 S) a = b a := by
  refine ⟨rfl, rfl, rfl, rfl, BroadcastGeneric.sendrecv_root_emits g b S (some rb) R,
    fun a _ ha => ?_⟩
  simp [Buf.write_apply, List.getElem?_eq_getElem (show a < (b.slice 0 S).length by simpa using ha)]
