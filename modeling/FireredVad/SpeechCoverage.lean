import FireredVad.SegmentOrder

/-!
# Which speech frames the segments cover

A speech frame is owed to the caller when the detector is active after it, or when it
belongs to the run of speech frames that opened a segment. Every owed frame lies in
exactly one segment, with one exception: the frame on which a force-split fires. The
segment it closes ends before that frame, and the next segment starts after it.
-/

namespace FireredVad

/-- Frame `i` is speech, and the detector is active after it, or some frame `o` from `i` on
makes it active and all frames between them are speech. `active n` is the state after `n`
frames. -/
def Owed (b : List Bool) (active : ℕ → Bool) (i : ℕ) : Prop :=
  b[i]? = some true ∧
    (active (i + 1) = true ∨
      ∃ o, i ≤ o ∧ active o = false ∧ active (o + 1) = true ∧
        ∀ k, i ≤ k → k ≤ o → b[k]? = some true)

/-- The same, as far as it is known after `n` frames. -/
def OwedBefore (b : List Bool) (active : ℕ → Bool) (n i : ℕ) : Prop :=
  b[i]? = some true ∧
    ((i < n ∧ active (i + 1) = true) ∨
      ∃ o, i ≤ o ∧ o < n ∧ active o = false ∧ active (o + 1) = true ∧
        ∀ k, i ≤ k → k ≤ o → b[k]? = some true)

section Owed

variable {b : List Bool} {active : ℕ → Bool} {n i : ℕ}

theorem Owed.before (h : Owed b active i) : OwedBefore b active b.length i := by
  have hlt {k : ℕ} (hk : b[k]? = some true) : k < b.length :=
    (List.getElem?_eq_some_iff.mp hk).1
  obtain ⟨hi, hact | ⟨o, hio, hoff, hon, hrun⟩⟩ := h
  · exact ⟨hi, .inl ⟨hlt hi, hact⟩⟩
  · exact ⟨hi, .inr ⟨o, hio, hlt (hrun o hio (Nat.le_refl o)), hoff, hon, hrun⟩⟩

theorem OwedBefore.lt (h : OwedBefore b active n i) : i < n := by
  obtain ⟨-, ⟨hi, -⟩ | ⟨o, hio, hon, -⟩⟩ := h
  · exact hi
  · omega

/-- A frame that becomes owed on frame `n` is this frame, or belongs to the run of speech
frames that opens a segment on it. -/
theorem OwedBefore.succ_cases (h : OwedBefore b active (n + 1) i) :
    OwedBefore b active n i ∨
      active (n + 1) = true ∧ i ≤ n ∧ (∀ k, i ≤ k → k ≤ n → b[k]? = some true) ∧
        (active n = true → i = n) := by
  obtain ⟨hi, ⟨hin, hact⟩ | ⟨o, hio, hon, hoff, hact, hrun⟩⟩ := h
  · rcases Nat.lt_succ_iff_lt_or_eq.mp hin with hlt | rfl
    · exact .inl ⟨hi, .inl ⟨hlt, hact⟩⟩
    · refine .inr ⟨hact, Nat.le_refl i, fun k hk hki => ?_, fun _ => rfl⟩
      rwa [Nat.le_antisymm hki hk]
  · rcases Nat.lt_succ_iff_lt_or_eq.mp hon with hlt | rfl
    · exact .inl ⟨hi, .inr ⟨o, hio, hlt, hoff, hact, hrun⟩⟩
    · exact .inr ⟨hact, hio, hrun, by simp [hoff]⟩

end Owed

namespace Segmenter

/-- The next frame splits the open segment. -/
def Splits (lim : FrameLimits) (a : Segmenter) (x : Bool) : Prop :=
  x = true ∧ ∃ quiet start base, a.phase = .active quiet start base ∧
    lim.SplitDue (a.now + 1 - base)

theorem Splits.isActive {lim : FrameLimits} {a : Segmenter} {x : Bool} (h : a.Splits lim x) :
    (a.step lim x).1.phase.level.isActive = true := by
  obtain ⟨rfl, quiet, start, base, hphase, hdue⟩ := h
  simp [step, hphase, hdue, Hysteresis.Level.isActive]

/-- The frame pair `f` contains frame `i`. -/
def Claims (f : ℕ × ℕ) (i : ℕ) : Prop := f.1 ≤ i ∧ i < f.2

instance (f : ℕ × ℕ) (i : ℕ) : Decidable (Claims f i) := inferInstanceAs (Decidable (_ ∧ _))

theorem Claims.countP_eq_one {out : List (ℕ × ℕ)} {f : ℕ × ℕ} {i : ℕ}
    (hout : out.Pairwise fun f g => f.2 ≤ g.1) (hf : f ∈ out) (h : Claims f i) :
    out.countP (fun f => Claims f i) = 1 := by
  induction out with
  | nil => simp at hf
  | cons g out ih =>
    obtain ⟨hg, hout⟩ := List.pairwise_cons.mp hout
    rcases List.mem_cons.mp hf with rfl | hf
    · -- everything later starts after the frame
      have hlater : out.countP (fun f => Claims f i) = 0 := by
        apply List.countP_eq_zero.mpr
        intro g' hg'
        have hle := hg g' hg'
        have hlt := h.2
        rw [decide_eq_true_eq, Claims]
        omega
      simp [hlater, h]
    · have hearlier : ¬ Claims g i := by
        have hle := hg f hf
        have hge := h.1
        simp only [Claims]
        omega
      simp [ih hout hf, hearlier]

/-- After `n` frames: the owed frames are claimed by what was emitted or by the open
segment, and the frames of force-splits are not claimed and lie below the floor. -/
structure Coverage (b : List Bool) (active : ℕ → Bool) (split : ℕ → Prop) (n : ℕ)
    (a : Segmenter) (out : List (ℕ × ℕ)) : Prop where
  ordered : Ordered a out
  now : a.now = n
  /-- The run that could open a segment starts after the floor and after a silent frame. -/
  idle : ∀ run, a.phase = .idle run →
    a.floor + run ≤ n ∧ (n = run ∨ b[n - run - 1]? = some false)
  lost : ∀ i < n, split i → i < a.floor ∧ ∀ f ∈ out, ¬ Claims f i
  claimed : ∀ i, OwedBefore b active n i → ¬ split i → (∃ f ∈ out, Claims f i) ∨
    ∃ quiet start base, a.phase = .active quiet start base ∧ start ≤ i

variable {lim : FrameLimits} {b : List Bool} {active : ℕ → Bool} {split : ℕ → Prop} {n : ℕ}
  {a : Segmenter} {out : List (ℕ × ℕ)} {x : Bool}

theorem coverage_initial : Coverage b active split 0 {} [] := by
  refine ⟨ordered_initial, rfl, ?_, by simp, fun i hi => absurd hi.lt (Nat.not_lt_zero i)⟩
  rintro _ ⟨⟩
  exact ⟨Nat.le_refl 0, .inl rfl⟩

theorem Coverage.idle_step (h : Coverage b active split n a out) (hx : b[n]? = some x)
    (run : ℕ) (hrun : (a.step lim x).1.phase = .idle run) :
    (a.step lim x).1.floor + run ≤ n + 1 ∧
      (n + 1 = run ∨ b[n + 1 - run - 1]? = some false) := by
  have hfloor := (step_advances lim h.ordered.bounded x).bounded.floor_le
  rw [step_now, h.now] at hfloor
  cases x with
  | false =>
    -- a run that ends on a silent frame is empty
    have hzero : run = 0 := by
      cases hphase : a.phase with
      | idle run₀ => simpa [step, hphase] using hrun.symm
      | active quiet start base =>
        simp only [step, hphase] at hrun
        split at hrun
        · simpa using hrun.symm
        · cases hrun
    subst hzero
    exact ⟨hfloor, .inr (by simpa using hx)⟩
  | true =>
    cases hphase : a.phase with
    | idle run₀ =>
      obtain ⟨hroom, hedge⟩ := h.idle run₀ hphase
      simp only [step, hphase] at hrun ⊢
      split at hrun
      · cases hrun
      · rename_i hrise
        cases hrun
        rw [if_neg hrise]
        exact ⟨by dsimp only; omega, hedge.imp (by omega) (by simp)⟩
    | active quiet start base =>
      simp only [step, hphase] at hrun
      split at hrun <;> cases hrun

theorem Coverage.lost_step (h : Coverage b active split n a out)
    (hsplit : split n ↔ a.Splits lim x) (i : ℕ) (hi : i < n + 1) (hs : split i) :
    i < (a.step lim x).1.floor ∧ ∀ f ∈ out ++ (a.step lim x).2.toList, ¬ Claims f i := by
  have hadv := step_advances lim h.ordered.bounded x
  rcases Nat.lt_succ_iff_lt_or_eq.mp hi with hlt | rfl
  · obtain ⟨hfloor, hout⟩ := h.lost i hlt hs
    refine ⟨hfloor.trans_le hadv.floor_le, fun f hf => ?_⟩
    rcases List.mem_append.mp hf with hf | hf
    · exact hout f hf
    · have hle := (hadv.emits f (by simpa using hf)).1
      simp only [Claims]
      omega
  · obtain ⟨rfl, quiet, start, base, hphase, hdue⟩ := hsplit.mp hs
    have hfloor := h.ordered.bounded.floor_le
    rw [h.now] at hdue
    simp only [step, hphase, h.now, if_pos hdue, Option.toList_some]
    refine ⟨Nat.lt_succ_self i, fun f hf => ?_⟩
    rcases List.mem_append.mp hf with hf | hf
    · have hle := (h.ordered.le_floor f hf).2
      have hnow := h.now
      simp only [Claims]
      omega
    · obtain rfl := List.mem_singleton.mp hf
      simp [Claims]

/-- The run of speech frames that opens a segment is the one the segmenter has counted. -/
theorem Coverage.counted (h : Coverage b active split n a out) {run i : ℕ}
    (hphase : a.phase = .idle run) (hin : i ≤ n)
    (hrun : ∀ k, i ≤ k → k ≤ n → b[k]? = some true) : n - run ≤ i := by
  obtain ⟨-, rfl | hfalse⟩ := h.idle run hphase
  · omega
  · by_contra hlt
    have htrue := hrun (n - run - 1) (by omega) (by omega)
    rw [hfalse] at htrue
    cases htrue

theorem Coverage.claimed_active (h : Coverage b active split n a out) {quiet start base i : ℕ}
    (hphase : a.phase = .active quiet start base) (hi : OwedBefore b active n i)
    (hs : ¬ split i) : (∃ f ∈ out, Claims f i) ∨ start ≤ i := by
  rcases h.claimed i hi hs with hc | ⟨_, _, _, hactive, hle⟩
  · exact .inl hc
  · rw [hphase] at hactive
    cases hactive
    exact .inr hle

/-- Cut off at the current frame, the open segment claims what was owed to it. -/
theorem Coverage.claimed_cut (h : Coverage b active split n a out) {quiet start base i : ℕ}
    (hphase : a.phase = .active quiet start base) (hi : OwedBefore b active n i)
    (hs : ¬ split i) : ∃ f ∈ out ++ [(start, a.now)], Claims f i := by
  rcases h.claimed_active hphase hi hs with ⟨f, hf, hc⟩ | hle
  · exact ⟨f, List.mem_append_left _ hf, hc⟩
  · exact ⟨(start, a.now), by simp, hle, by rw [h.now]; exact hi.lt⟩

theorem Coverage.claimed_step (h : Coverage b active split n a out)
    (hx : b[n]? = some x) (hact : active n = a.phase.level.isActive)
    (hact' : active (n + 1) = (a.step lim x).1.phase.level.isActive)
    (hsplit : split n ↔ a.Splits lim x) (i : ℕ) (hi : OwedBefore b active (n + 1) i)
    (hs : ¬ split i) :
    (∃ f ∈ out ++ (a.step lim x).2.toList, Claims f i) ∨
      ∃ quiet start base, (a.step lim x).1.phase = .active quiet start base ∧ start ≤ i := by
  have hnow := h.now
  have hkept : (∃ f ∈ out, Claims f i) →
      ∃ f ∈ out ++ (a.step lim x).2.toList, Claims f i :=
    fun ⟨f, hf, hc⟩ => ⟨f, List.mem_append_left _ hf, hc⟩
  cases hphase : a.phase with
  | idle run =>
    rcases hi.succ_cases with hold | ⟨hon, hin, hrun, -⟩
    · rcases h.claimed i hold hs with hc | ⟨quiet, start, base, hactive, -⟩
      · exact .inl (hkept hc)
      · rw [hphase] at hactive
        cases hactive
    · right
      obtain ⟨hroom, -⟩ := h.idle run hphase
      have hleft := h.counted hphase hin hrun
      have hx' := hrun n hin (Nat.le_refl n)
      obtain rfl : x = true := by simpa [hx] using hx'
      rw [hact'] at hon
      simp only [step, hphase] at hon ⊢
      split at hon
      · rename_i hrise
        rw [if_pos hrise]
        exact ⟨_, _, _, rfl, by omega⟩
      · cases hon
  | active quiet start base =>
    have hstart : start ≤ a.now := (h.ordered.bounded.start _ _ _ hphase).2
    have hnew : active (n + 1) = true ∧ i ≤ n ∧ (∀ k, i ≤ k → k ≤ n → b[k]? = some true) ∧
        (active n = true → i = n) → i = n ∧ x = true := by
      rintro ⟨-, -, hrun, heq⟩
      obtain rfl := heq (by rw [hact, hphase]; rfl)
      exact ⟨rfl, by simpa [hx] using hrun i (Nat.le_refl i) (Nat.le_refl i)⟩
    rcases hi.succ_cases with hold | hi
    · rcases step_active_cases lim hphase x with hcut | ⟨-, quiet', base', hopen⟩
      · rw [hcut]
        exact .inl (h.claimed_cut hphase hold hs)
      · rcases h.claimed_active hphase hold hs with hc | hle
        · exact .inl (hkept hc)
        · exact .inr ⟨_, _, _, hopen, hle⟩
    · obtain ⟨rfl, rfl⟩ := hnew hi
      have hquiet : ¬ lim.SplitDue (a.now + 1 - base) :=
        fun hdue => hs (hsplit.mpr ⟨rfl, _, _, _, hphase, hdue⟩)
      right
      simp only [step, hphase, if_neg hquiet]
      exact ⟨_, _, _, rfl, by omega⟩

theorem coverage_run (hact : ∀ pre, pre <+: b → active pre.length =
      (Transducer.run (step lim) {} pre).1.phase.level.isActive)
    (hsplit : ∀ pre x, pre ++ [x] <+: b →
      (split pre.length ↔ (Transducer.run (step lim) {} pre).1.Splits lim x)) :
    Coverage b active split b.length (Transducer.run (step lim) {} b).1
      (emitted (Transducer.run (step lim) {} b).2) := by
  let P (pre : List Bool) (a : Segmenter) (out : List (Option (ℕ × ℕ))) : Prop :=
    Coverage b active split pre.length a (emitted out)
  have hrun : P b (Transducer.run (step lim) {} b).1 (Transducer.run (step lim) {} b).2 := by
    refine Transducer.run_induction b coverage_initial ?_
    intro pre x hpre h
    have hx : b[pre.length]? = some x := by
      obtain ⟨post, rfl⟩ := hpre
      simp
    have hon := hact (pre ++ [x]) hpre
    rw [Transducer.run_concat, List.length_append] at hon
    have hoff := hact pre ((List.prefix_append pre [x]).trans hpre)
    have hadv := step_advances lim h.ordered.bounded x
    simp only [P, emitted_append, emitted_cons, emitted_nil, List.append_nil, List.length_append,
      List.length_singleton]
    exact ⟨h.ordered.advance hadv, by simp [h.now], h.idle_step hx, h.lost_step (hsplit pre x hpre),
      h.claimed_step hx hoff hon (hsplit pre x hpre)⟩
  exact hrun

/-- At the end of the stream exactly the frames of force-splits are missing. -/
theorem Coverage.finish (h : Coverage b active split n a out) {i : ℕ}
    (hi : OwedBefore b active n i) :
    (out ++ a.finish.2.toList).countP (fun f => Claims f i) = 1 ↔ ¬ split i := by
  have hadv := finish_advances h.ordered.bounded
  constructor
  · intro hcount hs
    obtain ⟨hfloor, hout⟩ := h.lost i hi.lt hs
    have hzero : (out ++ a.finish.2.toList).countP (fun f => Claims f i) = 0 := by
      apply List.countP_eq_zero.mpr
      intro f hf
      rcases List.mem_append.mp hf with hf | hf
      · simpa using hout f hf
      · have hle := (hadv.emits f (by simpa using hf)).1
        rw [decide_eq_true_eq, Claims]
        omega
    omega
  · intro hs
    have hpairwise := (h.ordered.advance hadv).pairwise
    rcases h.claimed i hi hs with ⟨f, hf, hc⟩ | ⟨quiet, start, base, hphase, hle⟩
    · exact hc.countP_eq_one hpairwise (List.mem_append_left _ hf)
    · have hlt : i < a.now := h.now ▸ hi.lt
      have hc : Claims (start, a.now) i := ⟨hle, hlt⟩
      refine hc.countP_eq_one hpairwise (List.mem_append_right _ ?_)
      simp [Segmenter.finish, hphase, hle.trans_lt hlt]

end Segmenter

/-- On a coherent machine a frame splits iff the limit is due after counting it. -/
theorem Machine.Coherent.splits_iff {s : Machine} (h : s.Coherent) (lim : FrameLimits)
    (x : Bool) :
    s.segmenter.Splits lim x ↔
      s.isActive = true ∧ x = true ∧ lim.SplitDue (s.speechCnt + 1) := by
  cases h with
  | silence silenceCnt stop cnt hstop => simp [Segmenter.Splits, segmenter, isActive]
  | possibleSpeech run silenceCnt stop cnt hrun hstop =>
    simp [Segmenter.Splits, segmenter, isActive]
  | speech count start stop cnt hcount hstart hstop =>
    have hbase : cnt + 1 - (cnt - count) = count + 1 := by omega
    simp [Segmenter.Splits, segmenter, isActive, hbase]
  | armed stop cnt hstop => simp [Segmenter.Splits, segmenter, isActive]
  | possibleSilence count quiet start stop cnt hcount hstart hstop =>
    have hbase : cnt + 1 - (cnt - count) = count + 1 := by omega
    simp [Segmenter.Splits, segmenter, isActive, hbase]

/-- All samples of frame `i` lie in the segment. -/
def SpeechSegment.CoversFrame (s : SpeechSegment) (i : ℕ) : Prop :=
  s.startSample ≤ frameShiftSamples * i ∧ frameShiftSamples * (i + 1) ≤ s.endSample

instance (s : SpeechSegment) (i : ℕ) : Decidable (s.CoversFrame i) :=
  inferInstanceAs (Decidable (_ ∧ _))

theorem coversFrame_toSamples (f : ℕ × ℕ) (i : ℕ) :
    (toSamples f).CoversFrame i ↔ Segmenter.Claims f i := by
  simp only [SpeechSegment.CoversFrame, toSamples, frameShiftSamples, Segmenter.Claims]
  omega

namespace Postprocessor

variable {F32 F64 : Type} [FloatOps F32] [FloatOps F64] [FloatCast F32 F64]

/-- Whether the detector is active after the first `n` probabilities. -/
def activeAfter (p : Postprocessor F32 F64) (probs : List F32) (n : ℕ) : Bool :=
  (p.pushAll (probs.take n)).1.isActive

/-- What the pushes return, and then what the end of the stream closes. -/
def segmentsToEnd (p : Postprocessor F32 F64) (probs : List F32) : List SpeechSegment :=
  p.segments probs ++ (p.pushAll probs).1.finishActive.2.toList

/-- The next probability is speech in an active state that has reached the maximum. -/
def ForceSplits (p : Postprocessor F32 F64) (rawProb : F32) : Prop :=
  p.isActive = true ∧ p.options.speechThreshold ≤ (p.smooth rawProb).2 ∧
    ∃ limit ∈ p.options.maxSpeechFrames, limit ≤ p.speechCnt + 1

/-- A run that ends after `probs` loses no speech: every owed frame lies in exactly one
segment, and the segment after a force-split starts where the one before it ends. -/
structure NoSpeechLost (p : Postprocessor F32 F64) (probs : List F32) : Prop where
  covered : ∀ i, Owed (p.flags probs) (p.activeAfter probs) i →
    (p.segmentsToEnd probs).countP (fun s => s.CoversFrame i) = 1
  back_to_back : ∀ (i : ℕ) (rawProb : F32) (f f' : FrameResult F32) (s : SpeechSegment)
    (s' : Option SpeechSegment) (start : ℕ), probs[i]? = some rawProb →
    (p.pushAll (probs.take i)).1.ForceSplits rawProb →
    (p.pushAll probs).2[i]? = some (f, some s) → (p.pushAll probs).2[i + 1]? = some (f', s') →
    f'.speechStartFrame = some start → start * frameShiftSamples = s.endSample

theorem forceSplits_iff {p : Postprocessor F32 F64} (hp : p.toMachine.Coherent)
    (rawProb : F32) :
    p.ForceSplits rawProb ↔
      p.toMachine.segmenter.Splits p.options.limits (p.pushProbability rawProb).2.1.isSpeech := by
  rw [hp.splits_iff]
  simp [ForceSplits, pushProbability, FrameLimits.SplitDue, VadOptions.limits]

theorem flags_getElem? (p : Postprocessor F32 F64) (probs : List F32) (i : ℕ) :
    (p.flags probs)[i]? =
      probs[i]?.map fun raw => ((p.pushAll (probs.take i)).1.pushProbability raw).2.1.isSpeech := by
  simp [flags, frames, pushAll, Transducer.run_output, Function.comp_def]

/-- The state before a frame, as the segmenter sees it. -/
theorem pushAll_take_segmenter (o : VadOptions F32) (probs : List F32) {pre : List Bool}
    (hpre : pre <+: (new o : Postprocessor F32 F64).flags probs) :
    let q := ((new o : Postprocessor F32 F64).pushAll (probs.take pre.length)).1
    q.toMachine.Coherent ∧
      q.toMachine.segmenter = (Transducer.run (Segmenter.step o.limits) {} pre).1 := by
  intro q
  let p : Postprocessor F32 F64 := new o
  obtain ⟨hcoherent, hseg, -⟩ :=
    pushAll_segmenter (p := p) (coherent_new o) (probs.take pre.length)
  rw [flags_take, ← List.prefix_iff_eq_take.mp hpre] at hseg
  exact ⟨hcoherent, hseg⟩

/-- Frame `i` of the run force-splits. -/
def ForceSplitsAt (p : Postprocessor F32 F64) (probs : List F32) (i : ℕ) : Prop :=
  ∃ raw, probs[i]? = some raw ∧ (p.pushAll (probs.take i)).1.ForceSplits raw

theorem forceSplitsAt_iff (o : VadOptions F32) (probs : List F32) {pre : List Bool} {x : Bool}
    (hpre : pre ++ [x] <+: (new o : Postprocessor F32 F64).flags probs) :
    (new o : Postprocessor F32 F64).ForceSplitsAt probs pre.length ↔
      (Transducer.run (Segmenter.step o.limits) {} pre).1.Splits o.limits x := by
  let p : Postprocessor F32 F64 := new o
  obtain ⟨hcoherent, hseg⟩ :=
    pushAll_take_segmenter o probs ((List.prefix_append pre [x]).trans hpre)
  have hx : (p.flags probs)[pre.length]? = some x := by
    obtain ⟨post, hpost⟩ := hpre
    rw [← hpost]
    simp
  rw [flags_getElem?] at hx
  obtain ⟨raw, hraw, rfl⟩ := Option.map_eq_some_iff.mp hx
  have hsplit := forceSplits_iff hcoherent raw
  rw [hseg, pushAll_options] at hsplit
  simp only [ForceSplitsAt, hraw, Option.some.injEq, exists_eq_left']
  exact hsplit

/-- The segmenter's coverage of a run of a fresh postprocessor. -/
theorem coverage (o : VadOptions F32) (probs : List F32) :
    let p : Postprocessor F32 F64 := new o
    Segmenter.Coverage (p.flags probs) (p.activeAfter probs) (p.ForceSplitsAt probs)
      (p.flags probs).length
      (Transducer.run (Segmenter.step o.limits) {} (p.flags probs)).1
      (emitted (Transducer.run (Segmenter.step o.limits) {} (p.flags probs)).2) := by
  intro p
  apply Segmenter.coverage_run
  · intro pre hpre
    rw [activeAfter, isActive_eq_level, level, (pushAll_take_segmenter o probs hpre).2]
  · intro pre x hpre
    exact forceSplitsAt_iff o probs hpre

/-- What a run and the end of the stream emit, as the segmenter emits it. -/
theorem segmentsToEnd_eq (o : VadOptions F32) (probs : List F32) :
    let p : Postprocessor F32 F64 := new o
    let r := Transducer.run (Segmenter.step o.limits) {} (p.flags probs)
    p.segmentsToEnd probs = (emitted r.2 ++ r.1.finish.2.toList).map toSamples := by
  intro p r
  obtain ⟨hcoherent, hseg, -⟩ := pushAll_segmenter (p := p) (coherent_new o) probs
  have hfinish : (p.pushAll probs).1.finishActive.2 = r.1.finish.2.map toSamples :=
    hseg ▸ (Machine.finish_refines hcoherent).2.2
  have hsegments : p.segments probs = (emitted r.2).map toSamples := segments_eq (coherent_new o) _
  rw [segmentsToEnd, hsegments, hfinish, List.map_append, Option.toList_map]

/-- The number of segments that cover a frame, as the segmenter emits them. -/
theorem countP_segmentsToEnd (o : VadOptions F32) (probs : List F32) (i : ℕ) :
    let p : Postprocessor F32 F64 := new o
    let r := Transducer.run (Segmenter.step o.limits) {} (p.flags probs)
    (p.segmentsToEnd probs).countP (fun s => s.CoversFrame i) =
      (emitted r.2 ++ r.1.finish.2.toList).countP (fun f => Segmenter.Claims f i) := by
  intro p r
  have hall : p.segmentsToEnd probs = (emitted r.2 ++ r.1.finish.2.toList).map toSamples :=
    segmentsToEnd_eq o probs
  rw [hall, List.countP_map]
  simp [Function.comp_def, coversFrame_toSamples]

/-- A run loses no speech exactly if no frame of it force-splits. -/
theorem noSpeechLost_iff (o : VadOptions F32) (probs : List F32) :
    let p : Postprocessor F32 F64 := new o
    p.NoSpeechLost probs ↔
      ∀ i raw, probs[i]? = some raw → ¬ (p.pushAll (probs.take i)).1.ForceSplits raw := by
  intro p
  have hcount := @countP_segmentsToEnd F32 F64 _ _ _ o probs
  have hcover := @coverage F32 F64 _ _ _ o probs
  constructor
  · intro h i raw hraw hsplit
    have hp : (p.pushAll (probs.take i)).1.toMachine.Coherent :=
      (pushAll_segmenter (coherent_new o) _).1
    have hsplits := (forceSplits_iff hp raw).mp hsplit
    have howed : Owed (p.flags probs) (p.activeAfter probs) i := by
      refine ⟨by rw [flags_getElem?, hraw]; exact congrArg some hsplits.1, .inl ?_⟩
      have htake : probs.take (i + 1) = probs.take i ++ [raw] := by
        rw [List.take_add_one, hraw]
        rfl
      rw [activeAfter, htake, pushAll_concat, isActive_eq_level, level, pushProbability_machine,
        (Machine.step_refines _ hp _).segmenter]
      exact hsplits.isActive
    refine (hcover.finish howed.before).mp ?_ ⟨raw, hraw, hsplit⟩
    rw [← hcount]
    exact h.covered i howed
  · intro h
    refine ⟨fun i howed => ?_, fun i raw _ _ _ _ _ hraw hsplit => absurd hsplit (h i raw hraw)⟩
    rw [hcount]
    refine (hcover.finish howed.before).mpr ?_
    rintro ⟨raw, hraw, hsplit⟩
    exact h i raw hraw hsplit

/-- Eight speech frames with a maximum of five: frame 4 closes `[0, 640)`, the next segment
starts at sample 800, and the samples of frame 4 are in neither. -/
theorem forceSplit_loses_frame :
    let o : VadOptions ℚ :=
      ((((VadOptions.new.withSmoothWindowSize 1).withMinSpeechDuration
        (.fromMillis 30)).withMinSilenceDuration (.fromMillis 30)).withPadStart
          (.fromMillis 10)).withMaxSpeechDuration (.fromMillis 50)
    let p : Postprocessor ℚ ℚ := new o
    let probs : List ℚ := List.replicate 8 (9 / 10) ++ List.replicate 4 0
    p.segmentsToEnd probs = [⟨0, 640⟩, ⟨800, 1600⟩] ∧
      (p.flags probs)[4]? = some true ∧ p.activeAfter probs 5 = true ∧
      ¬ p.NoSpeechLost probs := by
  intro o p probs
  have hsegments : p.segmentsToEnd probs = [⟨0, 640⟩, ⟨800, 1600⟩] := by decide +kernel
  have hflag : (p.flags probs)[4]? = some true := by decide +kernel
  have hactive : p.activeAfter probs 5 = true := by decide +kernel
  refine ⟨hsegments, hflag, hactive, fun h => ?_⟩
  have hcovered := h.covered 4 ⟨hflag, .inl hactive⟩
  rw [hsegments] at hcovered
  exact absurd hcovered (by decide)

end Postprocessor

end FireredVad
