import FireredVad.CounterWidths

/-!
# When the counters overflow

A stretch is told from what can be seen of a run: the speech decisions, the activity and
the answers. The `u32` counters count stretches, so a run overflows iff it holds a stretch
of more than `u32::MAX` frames: silent frames in a row, or the frames of one open piece.
-/

namespace FireredVad

/-- The silent and the speech frames in a row up to now, and the frames of the open piece:
it counts from the first speech frame of its opening run, or from the frame after the last
force-split. -/
structure Stretch where
  silent : ℕ := 0
  speech : ℕ := 0
  piece : ℕ := 0
  deriving DecidableEq, Repr

namespace Stretch

/-- One more frame, from what it found, decided, ended and left behind. -/
def frame (st : Stretch) (wasActive isSpeech isSpeechEnd isActive : Bool) : Stretch where
  silent := if isSpeech then 0 else st.silent + 1
  speech := if isSpeech then st.speech + 1 else 0
  piece :=
    if isSpeechEnd || !isActive then 0
    else if wasActive then st.piece + 1
    else st.speech + 1

/-- Neither a silent frame nor a frame of an open piece makes the stretch too long. -/
def Fits (st : Stretch) (wasActive isSpeech : Bool) : Prop :=
  (isSpeech = false → st.silent < u32Max) ∧ (wasActive = true → st.piece < u32Max)

/-- What the counters of a machine count, in each of its states. -/
def Counts (st : Stretch) (s : Machine) : Prop :=
  match s.state with
  | .silence => s.silenceCnt = st.silent ∧ st.speech = 0
  | .possibleSpeech => s.speechCnt = st.speech ∧ s.speechCnt < u32Max ∧ st.silent = 0
  | .speech => s.speechCnt = st.piece ∧ st.silent = 0
  | .possibleSilence => s.speechCnt = st.piece ∧ s.silenceCnt = st.silent ∧ st.silent < u32Max

theorem counts_initial : Counts {} {} := ⟨rfl, rfl⟩

private theorem one_lt_u32Max : 1 < u32Max := by decide

variable {st : Stretch} {s : Machine}

/-- The speech counter is small until a piece opens, and then counts its frames. -/
theorem Counts.speechCnt (h : Counts st s) (hs : s.Coherent) :
    (s.isActive = false → s.speechCnt < u32Max) ∧
      (s.isActive = true → s.speechCnt = st.piece) := by
  cases hs with
  | silence silenceCnt stop cnt hstop =>
    exact ⟨fun _ => Nat.zero_lt_of_lt one_lt_u32Max, nofun⟩
  | possibleSpeech run silenceCnt stop cnt hrun hstop => exact ⟨fun _ => h.2.1, nofun⟩
  | speech count start stop cnt hcount hstart hstop => exact ⟨nofun, fun _ => h.1⟩
  | armed stop cnt hstop => exact ⟨nofun, fun _ => h.1⟩
  | possibleSilence count quiet start stop cnt hcount hstart hstop => exact ⟨nofun, fun _ => h.1⟩

/-- The silence counter counts the silent frames in a row, where it counts. -/
theorem Counts.silenceCnt (h : Counts st s) (hs : s.Coherent) :
    (s.state = .possibleSpeech → st.silent = 0) ∧
      (s.state ≠ .possibleSpeech → s.silenceCnt = st.silent) := by
  cases hs with
  | silence silenceCnt stop cnt hstop => exact ⟨nofun, fun _ => h.1⟩
  | possibleSpeech run silenceCnt stop cnt hrun hstop =>
    exact ⟨fun _ => h.2.2, fun hne => absurd rfl hne⟩
  | speech count start stop cnt hcount hstart hstop => exact ⟨nofun, fun _ => h.2.symm⟩
  | armed stop cnt hstop => exact ⟨nofun, fun _ => h.2.symm⟩
  | possibleSilence count quiet start stop cnt hcount hstart hstop =>
    exact ⟨nofun, fun _ => h.2.1⟩

/-- The counters have room for a frame iff the stretch has. -/
theorem Counts.room_iff (h : Counts st s) (hs : s.Coherent) (b : Bool) :
    s.Room b ↔ st.Fits s.isActive b := by
  obtain ⟨hsmall, hpiece⟩ := h.speechCnt hs
  obtain ⟨hzero, hsilent⟩ := h.silenceCnt hs
  have hspeech : (s.countsSpeech b = true → s.speechCnt < u32Max) ↔
      (s.isActive = true → st.piece < u32Max) := by
    cases hactive : s.isActive with
    | true => simp [Machine.countsSpeech, hactive, hpiece hactive]
    | false => simp [hsmall hactive]
  have hsilence : (s.countsSilence b = true → s.silenceCnt < u32Max) ↔
      (b = false → st.silent < u32Max) := by
    by_cases hstate : s.state = .possibleSpeech
    · simp [Machine.countsSilence, hstate, hzero hstate, Nat.zero_lt_of_lt one_lt_u32Max]
    · simp [Machine.countsSilence, hstate, hsilent hstate]
  rw [Machine.Room, hspeech, hsilence, Fits]
  exact and_comm

/-- A frame of an open segment. -/
private theorem Counts.step_active {lim : FrameLimits} (hmin : lim.minSilenceFrames ≤ u32Max)
    {state : VadState} (hstate : state = .speech ∨ state = .possibleSilence) {n q cnt : ℕ}
    {start stop : Option ℕ} (h : Counts st ⟨state, n, q, false, start, stop, cnt⟩)
    (hq : state = .speech → q = 0) (b : Bool) :
    let r := Machine.step lim ⟨state, n, q, false, start, stop, cnt⟩ b
    Counts (st.frame true b r.2.isSpeechEnd r.1.isActive) r.1 := by
  have hpiece : n = st.piece := by
    rcases hstate with rfl | rfl
    · exact h.1
    · exact h.1
  cases b with
  | true =>
    simp only [Machine.step_active_speech _ _ _ _ _ _ hstate]
    split
    · exact ⟨rfl, rfl⟩
    · exact ⟨congrArg (· + 1) hpiece, rfl⟩
  | false =>
    rcases hstate with rfl | rfl
    · have hquiet : q = st.silent := (hq rfl).trans h.2.symm
      have hlt : st.silent + 1 < u32Max := by
        rw [h.2]
        exact one_lt_u32Max
      exact ⟨congrArg (· + 1) hpiece, congrArg (· + 1) hquiet, hlt⟩
    · have hquiet : q = st.silent := h.2.1
      simp only [Machine.step_possibleSilence_silence]
      split
      · exact ⟨congrArg (· + 1) hquiet, rfl⟩
      · -- the silence is still shorter than what closes the segment, which is a `u32`
        have hlt : st.silent + 1 < u32Max := by omega
        exact ⟨congrArg (· + 1) hpiece, congrArg (· + 1) hquiet, hlt⟩

/-- Each frame leaves the counters at the stretch that it leaves. -/
theorem Counts.step {lim : FrameLimits} (hspeech : lim.minSpeechFrames ≤ u32Max)
    (hsilence : lim.minSilenceFrames ≤ u32Max) (h : Counts st s) (hs : s.Coherent) (b : Bool) :
    let r := s.step lim b
    Counts (st.frame s.isActive b r.2.isSpeechEnd r.1.isActive) r.1 := by
  cases hs with
  | silence silenceCnt stop cnt hstop =>
    obtain ⟨hsilent, hrun⟩ := h
    cases b with
    | true => exact ⟨(congrArg (· + 1) hrun).symm, one_lt_u32Max, rfl⟩
    | false => exact ⟨congrArg (· + 1) hsilent, rfl⟩
  | possibleSpeech run silenceCnt stop cnt hrun hstop =>
    obtain ⟨hcount, -, hsilent⟩ := h
    cases b with
    | true =>
      simp only [Machine.step_possibleSpeech_speech]
      split
      · exact ⟨congrArg (· + 1) hcount, rfl⟩
      · refine ⟨congrArg (· + 1) hcount, ?_, rfl⟩
        dsimp only
        omega
    | false => exact ⟨congrArg (· + 1) hsilent.symm, rfl⟩
  | speech count start stop cnt hcount hstart hstop =>
    exact h.step_active hsilence (.inl rfl) (fun _ => rfl) b
  | possibleSilence count quiet start stop cnt hcount hstart hstop =>
    exact h.step_active hsilence (.inr rfl) nofun b
  | armed stop cnt hstop =>
    have hopen : Counts st ⟨.speech, 0, 0, false, some cnt, stop, cnt⟩ := h
    rw [Machine.step_armed]
    exact hopen.step_active hsilence (.inl rfl) (fun _ => rfl) b

/-- The end of a stream that closes a segment leaves both counters at zero. -/
theorem Counts.finish (h : Counts st s) (hs : s.Coherent) :
    Counts (if s.finishActive.2.isSome then {} else st) s.finishActive.1 := by
  cases hs with
  | silence silenceCnt stop cnt hstop => exact h
  | possibleSpeech run silenceCnt stop cnt hrun hstop => exact h
  | armed stop cnt hstop => exact h
  | speech count start stop cnt hcount hstart hstop => exact ⟨rfl, rfl⟩
  | possibleSilence count quiet start stop cnt hcount hstart hstop => exact ⟨rfl, rfl⟩

end Stretch

theorem durationToFrames_le (d : Duration) : durationToFrames d ≤ u32Max := by
  simp only [durationToFrames]
  split
  · exact le_rfl
  · exact Nat.le_of_not_gt ‹_›

namespace Postprocessor

variable {F32 F64 : Type} [FloatOps F32] [FloatOps F64] [FloatCast F32 F64]

/-- The stretch after a call, which the answer tells. -/
def stretchAfter (st : Stretch) (p : Postprocessor F32 F64) (c : Call F32) : Stretch :=
  let r := p.call c
  match r.2 with
  | .frame result _ => st.frame p.isActive result.isSpeech result.isSpeechEnd r.1.isActive
  | .optionsSet => st
  | .finished segment => if segment.isSome then {} else st

/-- The stretch after a run of calls. -/
def stretch (p : Postprocessor F32 F64) (st : Stretch) : List (Call F32) → Stretch
  | [] => st
  | c :: calls => stretch (p.call c).1 (stretchAfter st p c) calls

theorem stretch_concat (p : Postprocessor F32 F64) (st : Stretch) (calls : List (Call F32))
    (c : Call F32) : p.stretch st (calls ++ [c]) =
      stretchAfter (p.stretch st calls) (p.afterCalls calls) c := by
  induction calls generalizing p st with
  | nil => rfl
  | cons d calls ih => exact ih _ _

theorem call_counts {p : Postprocessor F32 F64} {st : Stretch} (hp : p.toMachine.Coherent)
    (h : st.Counts p.toMachine) (c : Call F32) :
    (stretchAfter st p c).Counts (p.call c).1.toMachine := by
  cases c with
  | pushProbability rawProb =>
    have hspeech : p.options.limits.minSpeechFrames ≤ u32Max := durationToFrames_le _
    have hsilence : p.options.limits.minSilenceFrames ≤ u32Max := durationToFrames_le _
    have hstep := h.step hspeech hsilence hp (p.pushProbability rawProb).2.1.isSpeech
    simpa [stretchAfter, call, pushProbability] using hstep
  | setOptions options => simpa [stretchAfter, call] using h
  | finishActive => exact h.finish hp

theorem afterCalls_counts {p : Postprocessor F32 F64} {st : Stretch} (hp : p.toMachine.Coherent)
    (h : st.Counts p.toMachine) (calls : List (Call F32)) :
    (p.stretch st calls).Counts (p.afterCalls calls).toMachine := by
  induction calls using List.reverseRecOn with
  | nil => exact h
  | append_singleton calls c ih =>
    rw [stretch_concat, afterCalls_concat]
    exact call_counts (afterCalls_coherent hp calls) ih c

/-- The calls that push a frame. -/
def Call.isFrame : Call F32 → Bool
  | pushProbability _ => true
  | setOptions _ | finishActive => false

theorem call_frameCnt (p : Postprocessor F32 F64) (c : Call F32) :
    (p.call c).1.frameCnt1Based = p.frameCnt1Based + List.countP Call.isFrame [c] := by
  cases c with
  | pushProbability rawProb =>
    simp [call, pushProbability, Call.isFrame]
  | setOptions options => exact congrArg Machine.frameCnt1Based (p.setOptions_toMachine options)
  | finishActive => exact p.toMachine.finishActive_frameCnt

theorem afterCalls_frameCnt (p : Postprocessor F32 F64) (calls : List (Call F32)) :
    (p.afterCalls calls).frameCnt1Based = p.frameCnt1Based + calls.countP Call.isFrame := by
  induction calls using List.reverseRecOn with
  | nil => rfl
  | append_singleton calls c ih =>
    rw [afterCalls_concat, call_frameCnt, ih, List.countP_append, Nat.add_assoc]

/-- The next call keeps the stretch short enough for `u32`. -/
def Fits (p : Postprocessor F32 F64) (st : Stretch) : Call F32 → Prop
  | .pushProbability rawProb => st.Fits p.isActive (p.decides rawProb)
  | .setOptions _ | .finishActive => True

/-- A run in which each addition and product of the counters is checked. -/
def calls? (p : Postprocessor F32 F64) (calls : List (Call F32)) :
    Option (Postprocessor F32 F64 × List (Answer F32)) :=
  Transducer.run? call? p calls

/-- A checked call succeeds iff the stretch fits, and then it is the call. -/
theorem call?_spec {p : Postprocessor F32 F64} {st : Stretch} (hp : p.toMachine.Coherent)
    (h : st.Counts p.toMachine) {c : Call F32}
    (hcnt : p.frameCnt1Based + List.countP Call.isFrame [c] ≤ maxFrames) :
    ((p.call? c).isSome = true ↔ p.Fits st c) ∧ ∀ r, p.call? c = some r → r = p.call c := by
  cases c with
  | pushProbability rawProb =>
    have hroom := h.room_iff hp (p.decides rawProb)
    simp only [call?, pushProbability?_eq hp (Nat.lt_of_succ_le hcnt)]
    by_cases hfits : p.toMachine.Room (p.decides rawProb)
    · rw [if_pos hfits, Option.map_some]
      exact ⟨iff_of_true rfl (hroom.mp hfits), fun r hr => (Option.some.inj hr).symm⟩
    · rw [if_neg hfits, Option.map_none]
      refine ⟨iff_of_false Bool.false_ne_true (mt hroom.mpr hfits), fun r hr => ?_⟩
      cases hr
  | setOptions options => exact ⟨iff_of_true rfl trivial, fun r hr => (Option.some.inj hr).symm⟩
  | finishActive =>
    simp only [call?, finishActive?_eq hp hcnt, Option.map_some]
    exact ⟨iff_of_true rfl trivial, fun r hr => (Option.some.inj hr).symm⟩

/-- On a run that is not too long, the checked calls succeed iff the stretches fit, and then
they are the calls. -/
theorem calls?_spec {p : Postprocessor F32 F64} (hp : p.toMachine.Coherent)
    (h : Stretch.Counts {} p.toMachine) {calls : List (Call F32)}
    (hlength : p.frameCnt1Based + calls.countP Call.isFrame ≤ maxFrames) :
    ((p.calls? calls).isSome = true ↔
      ∀ pre c, pre ++ [c] <+: calls → (p.afterCalls pre).Fits (p.stretch {} pre) c) ∧
    ∀ r, p.calls? calls = some r → r = Transducer.run call p calls := by
  have hshort (pre : List (Call F32)) (c : Call F32) (hpre : pre ++ [c] <+: calls) :
      (p.afterCalls pre).frameCnt1Based + List.countP Call.isFrame [c] ≤ maxFrames := by
    have hcount : (pre ++ [c]).countP Call.isFrame ≤ calls.countP Call.isFrame :=
      hpre.sublist.countP_le
    rw [List.countP_append] at hcount
    rw [afterCalls_frameCnt]
    omega
  have hcall (pre : List (Call F32)) (c : Call F32) (hpre : pre ++ [c] <+: calls) :=
    call?_spec (afterCalls_coherent hp pre) (afterCalls_counts hp h pre) (hshort pre c hpre)
  have hagree : Transducer.Agree call? call p calls := fun pre c hpre => (hcall pre c hpre).2
  have hsucceeds : Transducer.Succeeds call? call p calls ↔
      ∀ pre c, pre ++ [c] <+: calls → (p.afterCalls pre).Fits (p.stretch {} pre) c :=
    forall₃_congr fun pre c hpre => (hcall pre c hpre).1
  refine ⟨hagree.run?_isSome_iff.trans hsucceeds, fun r hr => ?_⟩
  have hsome : (Transducer.run? call? p calls).isSome = true :=
    Option.isSome_iff_exists.mpr ⟨r, hr⟩
  have hrun := hagree.run?_eq (hagree.run?_isSome_iff.mp hsome)
  exact Option.some.inj (hr.symm.trans hrun)

omit [FloatOps F32] [FloatCast F32 F64] in
theorem new_frames_le (o : VadOptions F32) {calls : List (Call F32)}
    (h : calls.countP Call.isFrame ≤ 2 ^ 56) :
    (new o : Postprocessor F32 F64).frameCnt1Based + calls.countP Call.isFrame ≤ maxFrames :=
  (Nat.zero_add _).le.trans h

/-- In a run of at most `2^56` frames no addition and no product overflows iff no stretch is
too long for its counter: no silent frame is the `2^32`-th in a row, and no frame the
`2^32`-th of an open piece. -/
theorem calls?_isSome_iff (o : VadOptions F32) (calls : List (Call F32))
    (hlength : calls.countP Call.isFrame ≤ 2 ^ 56) :
    let p : Postprocessor F32 F64 := new o
    (p.calls? calls).isSome = true ↔
      ∀ pre c, pre ++ [c] <+: calls → (p.afterCalls pre).Fits (p.stretch {} pre) c := by
  intro p
  exact (calls?_spec (coherent_new o) Stretch.counts_initial (new_frames_le o hlength)).1

/-- Silent frames in a row, two force-splits, and an open piece that the end of the stream
closes. -/
theorem calls?_isSome_iff_short :
    let o : VadOptions ℚ := ((VadOptions.new.withSmoothWindowSize 1).withMinSpeechDuration
      (.fromMillis 30)).withMaxSpeechDuration (.fromMillis 60)
    let p : Postprocessor ℚ ℚ := new o
    let calls : List (Call ℚ) := List.replicate 5 (.pushProbability 0) ++
      List.replicate 14 (.pushProbability 1) ++ [.pushProbability 0, .finishActive]
    (p.calls? calls).isSome = true ∧
      p.callSegments calls = [⟨0, 1600⟩, ⟨1760, 2560⟩, ⟨2720, 3200⟩] ∧
      ∀ pre c, pre ++ [c] <+: calls → (p.afterCalls pre).Fits (p.stretch {} pre) c := by
  intro o p calls
  have hsome : (p.calls? calls).isSome = true := by decide +kernel
  have hsegments : p.callSegments calls = [⟨0, 1600⟩, ⟨1760, 2560⟩, ⟨2720, 3200⟩] := by
    decide +kernel
  exact ⟨hsome, hsegments, (calls?_isSome_iff o calls (by decide)).mp hsome⟩

/-- Without smoothing, a probability below the threshold is a silent frame. -/
private theorem decides_silent (n : ℕ) :
    let p : Postprocessor ℚ ℚ := new (VadOptions.new.withSmoothWindowSize 1)
    (p.afterCalls (List.replicate n (.pushProbability 0))).decides 0 = false := by
  intro p
  have hfixed : ∀ o, Call.setOptions o ∉ List.replicate n (.pushProbability (0 : ℚ)) := by
    intro o ho
    cases List.eq_of_mem_replicate ho
  have hoptions := afterCalls_options (p := p) hfixed
  have hsize : max p.options.smoothWindowSizeFrames 1 ≤ 1 := Nat.le_refl 1
  have hthreshold : ¬ p.options.speechThreshold ≤ 0 := by decide +kernel
  simp only [decides, smooth, hoptions, if_pos hsize, decide_eq_false hthreshold]

private theorem stretch_silent (n : ℕ) :
    let p : Postprocessor ℚ ℚ := new (VadOptions.new.withSmoothWindowSize 1)
    (p.stretch {} (List.replicate n (.pushProbability 0))).silent = n := by
  intro p
  induction n with
  | zero => rfl
  | succ n ih =>
    have hsilent : (p.afterCalls (List.replicate n (.pushProbability 0))).decides 0 = false :=
      decides_silent n
    rw [← pushProbability_isSpeech] at hsilent
    rw [List.replicate_succ', stretch_concat]
    simp only [stretchAfter, call, Stretch.frame, hsilent, Bool.false_eq_true, if_false]
    exact congrArg (· + 1) ih

/-- A counter of `u32` does not hold the silent frames of 498 days. -/
theorem silence_overflows :
    let p : Postprocessor ℚ ℚ := new (VadOptions.new.withSmoothWindowSize 1)
    let calls : List (Call ℚ) := List.replicate (2 ^ 32) (.pushProbability 0)
    calls.countP Call.isFrame ≤ 2 ^ 56 ∧ p.calls? calls = none := by
  intro p calls
  let pre : List (Call ℚ) := List.replicate u32Max (.pushProbability 0)
  have hcalls : calls = pre ++ [.pushProbability 0] := List.replicate_succ'
  have hcount : calls.countP Call.isFrame ≤ 2 ^ 56 := calc
    calls.countP Call.isFrame ≤ calls.length := List.countP_le_length
    _ = 2 ^ 32 := List.length_replicate
    _ ≤ 2 ^ 56 := Nat.pow_le_pow_right (by decide) (by decide)
  refine ⟨hcount, ?_⟩
  have hsome := (calls?_spec (p := p) (coherent_new _) Stretch.counts_initial
    (new_frames_le _ hcount)).1
  rw [← Option.not_isSome_iff_eq_none, hsome]
  intro hfits
  have hlast := hfits pre (.pushProbability 0) (hcalls ▸ List.prefix_refl _)
  have hlt := hlast.1 (decides_silent u32Max)
  rw [stretch_silent] at hlt
  exact Nat.lt_irrefl _ hlt

end Postprocessor

end FireredVad
