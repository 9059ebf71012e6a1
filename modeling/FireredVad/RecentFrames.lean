import FireredVad.FailedInference
import FireredVad.StreamBounds

/-!
# What `recent_frames` holds

The frames of the last non-empty push are the last frames of the stream, numbered without
gaps up to the frame count, whatever was called and whatever failed in between. Each says
of itself what the machine did on it.
-/

namespace FireredVad

namespace FrameResult

/-- A closing names this frame, an opening or a closing names a start that is not later, and
no other frame names any. -/
structure Consistent {F32 : Type} (f : FrameResult F32) : Prop where
  stop : f.speechEndFrame = if f.isSpeechEnd then some f.frameIndex else none
  start_isSome : f.speechStartFrame.isSome = (f.isSpeechStart || f.isSpeechEnd)
  start_le : ∀ start ∈ f.speechStartFrame, start ≤ f.frameIndex

theorem Consistent.closedSegment_isSome {F32 : Type} {f : FrameResult F32} (h : f.Consistent) :
    f.closedSegment.isSome = f.isSpeechEnd := by
  obtain ⟨hstop, hstart, -⟩ := h
  cases hend : f.isSpeechEnd with
  | false => simp [closedSegment, hend]
  | true =>
    rw [hend, Bool.or_true] at hstart
    obtain ⟨start, hsome⟩ := Option.isSome_iff_exists.mp hstart
    rw [hend] at hstop
    simp [closedSegment, hend, hsome, hstop]

end FrameResult

namespace Machine

/-- What a frame reports, when it is the frame `index`. -/
structure MarksFrame (mk : Marks) (index : ℕ) : Prop where
  stop : mk.endFrame = if mk.isSpeechEnd then some index else none
  start_isSome : mk.startFrame.isSome = (mk.isSpeechStart || mk.isSpeechEnd)
  start_le : ∀ start ∈ mk.startFrame, start ≤ index

theorem marksFrame_none (index : ℕ) : MarksFrame {} index := ⟨rfl, rfl, by simp⟩

theorem marksFrame_end {start index : ℕ} (h : start ≤ index) :
    MarksFrame { isSpeechEnd := true, startFrame := some start, endFrame := some index } index :=
  ⟨rfl, rfl, by rintro _ ⟨⟩; exact h⟩

theorem marksFrame_start {start index : ℕ} (h : start ≤ index) :
    MarksFrame { isSpeechStart := true, startFrame := some start } index :=
  ⟨rfl, rfl, by rintro _ ⟨⟩; exact h⟩

private theorem active_marksFrame (lim : FrameLimits) {state : VadState}
    (hstate : state = .speech ∨ state = .possibleSilence) (n q : ℕ) {start cnt : ℕ}
    (hstart : start ≤ cnt) (stop : Option ℕ) (b : Bool) :
    MarksFrame (step lim ⟨state, n, q, false, some start, stop, cnt⟩ b).2 cnt := by
  cases b with
  | true =>
    rw [step_active_speech _ _ _ _ _ _ hstate]
    split
    · exact marksFrame_end hstart
    · exact marksFrame_none cnt
  | false =>
    rcases hstate with rfl | rfl
    · exact marksFrame_none cnt
    · rw [step_possibleSilence_silence]
      split
      · exact marksFrame_end hstart
      · exact marksFrame_none cnt

theorem Coherent.step_marksFrame (lim : FrameLimits) {s : Machine} (h : s.Coherent) (b : Bool) :
    MarksFrame (s.step lim b).2 s.frameCnt1Based := by
  cases h with
  | silence silenceCnt stop cnt hstop => cases b <;> exact marksFrame_none cnt
  | possibleSpeech run silenceCnt stop cnt hrun hstop =>
    cases b with
    | false => exact marksFrame_none cnt
    | true =>
      rw [step_possibleSpeech_speech]
      have hle : max (cnt + 1 - (run + 1 + 1) - lim.padStartFrames) (floorAfter stop) ≤ cnt := by omega
      split
      · exact marksFrame_start hle
      · exact marksFrame_none cnt
  | speech count start stop cnt hcount hstart hstop =>
    exact active_marksFrame lim (.inl rfl) _ _ hstart.le stop b
  | possibleSilence count quiet start stop cnt hcount hstart hstop =>
    exact active_marksFrame lim (.inr rfl) _ _ hstart.le stop b
  | armed stop cnt hstop =>
    -- the start is announced here, and is this frame
    obtain ⟨hend, -, -⟩ := active_marksFrame lim (.inl rfl) 0 0 (Nat.le_refl cnt) stop b
    rw [step_armed]
    exact ⟨hend, rfl, by rintro _ ⟨⟩; exact Nat.le_refl cnt⟩

end Machine

namespace Postprocessor

variable {F32 F64 : Type} [FloatOps F32] [FloatOps F64] [FloatCast F32 F64]

theorem pushProbability_consistent {p : Postprocessor F32 F64} (hp : p.toMachine.Coherent)
    (raw : F32) : (p.pushProbability raw).2.1.Consistent := by
  obtain ⟨hstop, hstart, hle⟩ :=
    hp.step_marksFrame p.options.limits (p.pushProbability raw).2.1.isSpeech
  constructor
  · simpa [pushProbability] using hstop
  · simpa [pushProbability] using hstart
  · simpa [pushProbability] using hle

theorem frames_consistent {p : Postprocessor F32 F64} (hp : p.toMachine.Coherent)
    (raws : List F32) : ∀ f ∈ p.frames raws, f.Consistent := by
  induction raws generalizing p with
  | nil => simp [frames, pushAll]
  | cons raw raws ih =>
    have hcons : p.frames (raw :: raws) =
        (p.pushProbability raw).2.1 :: (p.pushProbability raw).1.frames raws := rfl
    rw [hcons, List.forall_mem_cons]
    exact ⟨pushProbability_consistent hp raw, ih (pushProbability_coherent hp raw)⟩

end Postprocessor

section Engines

variable {F32 F64 : Type} [FloatMath F32] [FloatMath F64] [FloatCast F32 F64]

namespace Progress

/-- The frames so far, from a coherent machine. -/
structure Sound (p : Progress F32 F64) : Prop where
  coherent : p.detector.toMachine.Coherent
  consistent : ∀ f ∈ p.frames, f.Consistent
  numbered : p.Numbered

theorem Sound.consume {p : Progress F32 F64} (h : p.Sound) (outputs : List F32 × Caches F32) :
    (p.consume outputs).Sound := by
  refine ⟨(Postprocessor.pushAll_segmenter h.coherent _).1, fun f hf => ?_,
    h.numbered.consume outputs⟩
  rcases List.mem_append.mp hf with hf | hf
  · exact h.consistent f hf
  · exact Postprocessor.frames_consistent h.coherent _ f hf

theorem Push.sound {session : Session F32} {p q : Progress F32 F64} {pcm : List F32}
    {a : Except Error Unit} (h : Push session p pcm q a) (hp : p.Sound) : q.Sound := by
  have hbuffer : (p.buffer pcm).Sound := ⟨hp.coherent, hp.consistent, hp.numbered⟩
  cases h with
  | drain => exact hp
  | wait => exact hbuffer
  | fail => exact hbuffer
  | answer => exact hbuffer.consume _

end Progress

namespace Vad

variable (pf : Platform F32)

/-- The frames of the ledger are sound, and `recent_frames` holds the last of them. -/
structure Recorded (s : Vad F32 F64 × Ledger F32) : Prop where
  sound : (progress pf s).Sound
  suffix : s.1.recentFrames <:+ s.2.frames

theorem recorded_new (cmvn : Cmvn F32) (o : VadOptions F32) :
    Recorded pf ((new cmvn o : Vad F32 F64), {}) :=
  ⟨⟨Postprocessor.coherent_new o, by rintro _ ⟨⟩, rfl⟩, List.suffix_refl _⟩

theorem record_recorded (s : Vad F32 F64 × Ledger F32) (op : Op F32) (h : Recorded pf s) :
    Recorded pf (record pf s op) := by
  obtain ⟨hsound, hsuffix⟩ := h
  have hnumbered := record_numbered pf s op hsound.numbered
  cases op with
  | pushSamples session pcm =>
    refine ⟨(progress_push pf s session pcm).sound hsound, ?_⟩
    by_cases hpcm : pcm = []
    · subst hpcm
      simp only [record, newFrames_nil, List.append_nil]
      exact hsuffix
    · simp only [record, newFrames_ne_nil hpcm]
      exact List.suffix_append _ _
  | finish =>
    exact ⟨⟨(Machine.finish_refines hsound.coherent).1, hsound.consistent, hnumbered⟩, hsuffix⟩
  | setOptions options =>
    refine ⟨⟨?_, hsound.consistent, hnumbered⟩, hsuffix⟩
    exact (s.1.detector.setOptions_toMachine options).symm ▸ hsound.coherent
  | reset =>
    exact ⟨⟨Machine.coherent_initial, by rintro _ ⟨⟩, hnumbered⟩, List.suffix_refl _⟩

/-- The last entries of a list that is numbered from zero. -/
private theorem suffix_numbered {α : Type} {g : α → ℕ} {xs ys : List α} {n : ℕ} (h : ys <:+ xs)
    (hxs : xs.map g = List.range n) :
    ys.length ≤ n ∧ ys.map g = List.range' (n - ys.length) ys.length := by
  obtain ⟨pre, rfl⟩ := h
  have hlen : pre.length + ys.length = n := by simpa using congrArg List.length hxs
  have hdrop : ys.map g = (List.range n).drop pre.length := by
    rw [← hxs, List.map_append, List.drop_left' (List.length_map g)]
  refine ⟨by omega, ?_⟩
  rw [hdrop, List.range_eq_range', List.drop_range', ← hlen, Nat.add_sub_cancel,
    Nat.add_sub_cancel_left]
  simp

/-- After any calls, with any failures, the frames in `recent_frames` say of themselves what
happened on them, those that end a segment and no others name it, and they are the last
frames: their numbers are consecutive and end at the frame count. The next push that is not
empty places there exactly the frames it adds. -/
theorem recentFrames_spec (cmvn : Cmvn F32) (o : VadOptions F32) (ops : List (Op F32)) :
    let v : Vad F32 F64 := (history pf cmvn o ops).1
    let k := v.recentFrames.length
    (∀ f ∈ v.recentFrames, f.Consistent ∧ f.closedSegment.isSome = f.isSpeechEnd) ∧
      k ≤ v.frameCount ∧
      v.recentFrames.map FrameResult.frameIndex = List.range' (v.frameCount - k) k ∧
      ∀ session pcm, pcm ≠ [] →
        let w := (v.pushSamples pf session pcm).1
        w.frameCount = v.frameCount + w.recentFrames.length := by
  intro v k
  have hrecorded (ops : List (Op F32)) :
      Recorded pf (history pf cmvn o ops : Vad F32 F64 × Ledger F32) :=
    history_invariant pf cmvn o (recorded_new pf cmvn o) (record_recorded pf) ops
  obtain ⟨hsound, hsuffix⟩ := hrecorded ops
  obtain ⟨hle, hindices⟩ := suffix_numbered hsuffix hsound.numbered
  have hconsistent : ∀ f ∈ v.recentFrames, f.Consistent :=
    fun f hf => hsound.consistent f (hsuffix.subset hf)
  refine ⟨fun f hf => ⟨hconsistent f hf, (hconsistent f hf).closedSegment_isSome⟩, hle, hindices, ?_⟩
  intro session pcm hpcm w
  have hnext := (record_recorded pf _ (.pushSamples session pcm) (hrecorded ops)).sound.numbered
  have hframes := congrArg List.length hsound.numbered
  have hframes' := congrArg List.length hnext
  simp only [progress, Engine.progress, record, newFrames_ne_nil hpcm, List.length_map,
    List.length_append, List.length_range] at hframes hframes'
  rw [hframes] at hframes'
  exact hframes'.symm

end Vad

/-- The windows that so many samples fill. -/
def windowCount (samples : ℕ) : ℕ := if samples < 400 then 0 else 1 + (samples - 400) / 160

namespace Engine

/-- The tail is too short for a window, and as long as a window has left it. -/
structure Framed (e : Engine F32 F64) : Prop where
  short : e.tail.length < 400
  rest : e.detector.frameCount + e.buffered.length = 0 ∨ 240 ≤ e.tail.length

omit [FloatMath F64] [FloatCast F32 F64] in
theorem Framed.buffer {e : Engine F32 F64} (h : e.Framed) (pcm : List F32) :
    (e.buffer pcm).Framed := by
  let xs := e.tail ++ pcm.map Scalar.pcmScale
  obtain ⟨hshort, hlength⟩ := Framing.windows_length frameShiftSamples_le xs
  refine ⟨hshort, ?_⟩
  rcases Framing.windows_rest frameShiftSamples_le xs with hnone | hrest
  · -- no window is full yet, and the tail has grown
    have hgrown : e.tail.length ≤ (frames xs).2.length := by
      rw [hnone, List.length_nil, Nat.mul_zero, Nat.add_zero, List.length_append] at hlength
      rw [hlength]
      exact Nat.le_add_right _ _
    have hbuffered : (e.buffer pcm).buffered = e.buffered :=
      (congrArg (e.buffered ++ List.map e.feature ·) hnone).trans (List.append_nil _)
    rw [hbuffered]
    exact h.rest.imp_right fun hrest => hrest.trans hgrown
  · exact .inr hrest

theorem Framed.consume {e : Engine F32 F64} (h : e.Framed) {outputs : List F32 × Caches F32}
    (hlen : outputs.1.length = e.buffered.length) : (e.consume outputs).Framed := by
  refine ⟨h.short, ?_⟩
  have hcount : (e.consume outputs).detector.frameCount + (e.consume outputs).buffered.length =
      e.detector.frameCount + e.buffered.length := by
    simp only [Engine.consume, (Postprocessor.pushAll_frameCount _ _).1, List.length_map, hlen,
      List.length_nil, Nat.add_zero]
  rw [hcount]
  exact h.rest

theorem Framed.pushSamples {e : Engine F32 F64} (h : e.Framed) (session : Session F32)
    (pcm : List F32) : (e.pushSamples session pcm).1.Framed := by
  apply pushSamples_rule session e pcm (P := fun r => r.1.Framed)
  case drain => exact fun _ => ⟨h.short, h.rest⟩
  case wait => exact fun _ _ => ⟨(h.buffer pcm).short, (h.buffer pcm).rest⟩
  case fail => exact fun _ _ _ _ => h.buffer pcm
  case answer =>
    intro outputs _ _ hout
    have hconsume := (h.buffer pcm).consume (checkedOutputs_length hout)
    exact ⟨hconsume.short, hconsume.rest⟩

/-- A push that succeeds leaves no feature behind. -/
theorem pushSamples_buffered {e : Engine F32 F64} {session : Session F32} {pcm : List F32}
    (hpcm : pcm ≠ []) {segment : Option SpeechSegment}
    (hok : (e.pushSamples session pcm).2 = .ok segment) :
    (e.pushSamples session pcm).1.buffered = [] := by
  revert hok
  apply pushSamples_rule session e pcm (P := fun r => r.2 = .ok segment → r.1.buffered = [])
  case drain => exact fun hnil => absurd hnil hpcm
  case wait => exact fun _ hbuffered _ => hbuffered
  case fail => rintro _ _ _ _ ⟨⟩
  case answer => exact fun _ _ _ _ _ => rfl

omit [FloatMath F32] [FloatMath F64] [FloatCast F32 F64] in
/-- The number of windows, from what has become of the samples. -/
theorem Framed.windows_eq {e : Engine F32 F64} (h : e.Framed) {n : ℕ} (hn : e.samples = n) :
    e.detector.frameCount + e.buffered.length = windowCount n := by
  obtain ⟨hshort, hrest⟩ := h
  simp only [samples, frameShiftSamples] at hn
  unfold windowCount
  generalize e.detector.frameCount + e.buffered.length = k at *
  split <;> omega

end Engine

namespace Vad

variable (pf : Platform F32)

theorem record_framed (s : Vad F32 F64 × Ledger F32) (op : Op F32)
    (h : Tracked pf s ∧ (s.1.view pf).Framed) :
    Tracked pf (record pf s op) ∧ ((record pf s op).1.view pf).Framed := by
  obtain ⟨htracked, hframed⟩ := h
  refine ⟨record_tracked pf s op htracked, ?_⟩
  cases op with
  | pushSamples session pcm =>
    have hpush := hframed.pushSamples session pcm
    rwa [pushSamples_view] at hpush
  | finish =>
    have hcount := s.1.detector.toMachine.finishActive_frameCnt
    exact ⟨hframed.short, hframed.rest.imp_left fun h =>
      (congrArg (· + s.1.runner.featScratch.length) hcount).trans h⟩
  | setOptions options =>
    have hcount := congrArg Machine.frameCnt1Based (s.1.detector.setOptions_toMachine options)
    exact ⟨hframed.short, hframed.rest.imp_left fun h =>
      (congrArg (· + s.1.runner.featScratch.length) hcount).trans h⟩
  | reset => exact ⟨Nat.zero_lt_succ 399, .inl rfl⟩

/-- After any calls, with any failures, the samples since the last reset are accounted for:
every window they fill is a frame, or a feature that an inference has yet to consume, and
the rest waits. After a push that succeeds every window is a frame. -/
theorem frameCount_eq_windows (cmvn : Cmvn F32) (o : VadOptions F32) (ops : List (Op F32)) :
    let s : Vad F32 F64 × Ledger F32 := history pf cmvn o ops
    let n := windowCount s.2.samples
    s.1.frameCount + s.1.runner.pendingFeatureFrames = n ∧
      s.1.pendingSamples = s.2.samples - 160 * n ∧ s.1.pendingSamples < 400 ∧
      ∀ session pcm segment, pcm ≠ [] → (s.1.pushSamples pf session pcm).2 = .ok segment →
        (s.1.pushSamples pf session pcm).1.frameCount = windowCount (s.2.samples + pcm.length) := by
  intro s n
  have hinv : Tracked pf s ∧ (s.1.view pf).Framed :=
    history_invariant pf cmvn o
      ⟨tracked_new pf cmvn o, Nat.zero_lt_succ 399, .inl rfl⟩ (record_framed pf) ops
  obtain ⟨htracked, hframed⟩ := hinv
  have hwindows : s.1.frameCount + s.1.runner.pendingFeatureFrames = n :=
    hframed.windows_eq htracked.samples
  have hsamples : s.1.pendingSamples +
      160 * (s.1.frameCount + s.1.runner.pendingFeatureFrames) = s.2.samples := htracked.samples
  refine ⟨hwindows, by omega, hframed.short, fun session pcm segment hpcm hok => ?_⟩
  obtain ⟨htracked', hframed'⟩ := record_framed pf s (.pushSamples session pcm) ⟨htracked, hframed⟩
  have hok' : ((s.1.view pf).pushSamples session pcm).2 = .ok segment := by
    rw [pushSamples_view]
    exact hok
  have hempty := Engine.pushSamples_buffered hpcm hok'
  rw [pushSamples_view] at hempty
  have hnext := hframed'.windows_eq htracked'.samples
  have hnone : ((record pf s (.pushSamples session pcm)).1.view pf).buffered = [] := hempty
  rw [hnone, List.length_nil, Nat.add_zero] at hnext
  exact hnext

end Vad

end Engines

end FireredVad
