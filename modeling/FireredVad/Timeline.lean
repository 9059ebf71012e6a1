import FireredVad.Checked
import FireredVad.FailedInference
import FireredVad.Options
import FireredVad.RoundedFloats
import FireredVad.StreamBounds

/-!
# Segments on the timeline

What a caller does with a segment: it reads its times as durations, which are computed in
`f64` seconds, and it slices the audio that it has pushed. A sample is 62500 ns, so for
months the times are exact although a hundredth of a second has no finite binary expansion.
-/

namespace FireredVad
open BinaryFormat

namespace Duration

def fromNanos (n : ℕ) : Duration where
  secs := n / 1000000000
  nanos := n % 1000000000
  nanos_lt := Nat.mod_lt n (by decide)

/-- Rounded to the nearest nanosecond, and to the even one of two. A negative number of
seconds panics, and so does one that is too large. -/
def fromSecsF64 (secs : Double) : Option Duration :=
  if secs.val < 0 then none
  else
    let nanos := (roundEven (secs.val * 1000000000)).toNat
    if nanos / 1000000000 < 2 ^ 64 then some (fromNanos nanos) else none

end Duration

/-- `sample as f64 / SAMPLE_RATE_HZ as f64`. -/
def sampleSecs (sample : ℕ) : Double := FloatOps.lit sample / FloatOps.lit sampleRateHz

namespace SpeechSegment

def start (s : SpeechSegment) : Option Duration := Duration.fromSecsF64 (sampleSecs s.startSample)

/-- `SpeechSegment::end`. -/
def stop (s : SpeechSegment) : Option Duration := Duration.fromSecsF64 (sampleSecs s.endSample)

def duration (s : SpeechSegment) : Option Duration :=
  Duration.fromSecsF64 (sampleSecs s.sampleCount)

/-- The bounds of the slice, saturated where `usize` is narrower than `u64`. -/
def rangeUsize (usizeMax : ℕ) (s : SpeechSegment) : ℕ × ℕ :=
  let toUsize (v : ℕ) : ℕ := if usizeMax < v then usizeMax else v
  (toUsize s.startSample, toUsize s.endSample)

end SpeechSegment

def FrameResult.timestamp {F32 : Type} (f : FrameResult F32) : Option Duration :=
  Duration.fromSecsF64 (sampleSecs (f.frameIndex * frameShiftSamples))

section Times

theorem sampleSecs_val {n : ℕ} (h : n < 2 ^ 53) :
    (sampleSecs n).val = double.round (n / 16000) := by
  have hn : (FloatOps.lit (n : ℚ) : Double).val = n :=
    (representable_natCast h (by decide)).round_eq
  have hrate : (FloatOps.lit ((sampleRateHz : ℕ) : ℚ) : Double).val = (sampleRateHz : ℕ) :=
    (representable_natCast (by decide) (by decide)).round_eq
  exact congrArg₂ (fun x y => double.round (x / y)) hn hrate

/-- Below 2²³ seconds the last bit of a time is worth less than a nanosecond. -/
theorem sampleSecs_near {n : ℕ} (h : n < 2 ^ 23 * 16000) :
    |(sampleSecs n).val * 1000000000 - ((62500 * n : ℕ) : ℤ)| < 1 / 2 := by
  have hsecs : (n : ℚ) / 16000 < 2 ^ 23 := by
    rw [div_lt_iff₀ (by norm_num)]
    exact_mod_cast h
  have herr : |double.round (n / 16000) - n / 16000| ≤ 1 / 2 ^ 31 := by
    have hlt : |(n : ℚ) / 16000| < 2 ^ (23 : ℤ) := by
      rw [abs_of_nonneg (by positivity)]
      exact_mod_cast hsecs
    refine (abs_round_sub_le_of_lt hlt (by decide)).trans_eq ?_
    norm_num
  rw [sampleSecs_val (h.trans (by norm_num))]
  have hscaled : double.round (n / 16000) * 1000000000 - ((62500 * n : ℕ) : ℤ) =
      (double.round (n / 16000) - n / 16000) * 1000000000 := by
    push_cast
    ring
  rw [hscaled, abs_mul, abs_of_nonneg (by norm_num : (0 : ℚ) ≤ 1000000000)]
  linarith

theorem fromSecsF64_sampleSecs {n : ℕ} (h : n < 2 ^ 23 * 16000) :
    Duration.fromSecsF64 (sampleSecs n) = some (.fromNanos (62500 * n)) := by
  have hnanos : roundEven ((sampleSecs n).val * 1000000000) = (62500 * n : ℕ) :=
    roundEven_eq (sampleSecs_near h)
  have hpos : ¬ (sampleSecs n).val < 0 := by
    rw [sampleSecs_val (h.trans (by norm_num)), not_lt]
    exact round_nonneg (by positivity)
  rw [Duration.fromSecsF64, if_neg hpos]
  simp only [hnanos, Int.toNat_natCast]
  exact if_pos (by omega)

theorem fromNanos_frame (i : ℕ) :
    Duration.fromNanos (62500 * (i * frameShiftSamples)) = .fromMillis (10 * i) := by
  rw [Duration.fromNanos, Duration.fromMillis, Duration.mk.injEq, frameShiftSamples]
  omega

/-- The first sample behind 2²³ seconds that is not on a whole second is not exact. -/
example : Duration.fromSecsF64 (sampleSecs (2 ^ 23 * 16000 + 1)) ≠
    some (.fromNanos (62500 * (2 ^ 23 * 16000 + 1))) := by
  decide +kernel

end Times

/-- A bound that does not fit a `usize` is out of range, saturated or not. -/
theorem slice?_rangeUsize {α : Type} {usizeMax : ℕ} {pcm : List α} (h : pcm.length < usizeMax)
    (g : SpeechSegment) :
    Checked.slice? pcm (g.rangeUsize usizeMax).1 (g.rangeUsize usizeMax).2 =
      Checked.slice? pcm g.startSample g.endSample := by
  have hnone {a b : ℕ} (hb : ¬ (a ≤ b ∧ b ≤ pcm.length)) : Checked.slice? pcm a b = none :=
    if_neg hb
  simp only [SpeechSegment.rangeUsize]
  by_cases hstop : usizeMax < g.endSample
  · rw [if_pos hstop, hnone fun hb => hb.2.not_gt h, hnone fun hb => by omega]
  · rw [if_neg hstop]
    by_cases hstart : usizeMax < g.startSample
    · rw [if_pos hstart, hnone fun hb => by omega, hnone fun hb => by omega]
    · rw [if_neg hstart]

section Engines

variable {F32 F64 : Type} [FloatMath F32] [FloatMath F64] [FloatCast F32 F64]

namespace Vad

variable (pf : Platform F32)

/-- What has been delivered or waits in the queue lies inside the samples pushed. -/
theorem history_segment (cmvn : Cmvn F32) (o : VadOptions F32) (ops : List (Op F32)) :
    let s : Vad F32 F64 × Ledger F32 := history pf cmvn o ops
    ∀ g ∈ s.2.delivered ++ s.1.pendingSegments,
      g.startSample ≤ g.endSample ∧ g.endSample ≤ s.2.samples := by
  intro s g hg
  have hbalanced : s.2.delivered ++ s.1.pendingSegments = s.2.closed :=
    history_invariant (P := Balanced) pf cmvn o rfl (record_balanced pf) ops
  have htracked : Tracked pf s :=
    history_invariant pf cmvn o (tracked_new pf cmvn o) (record_tracked pf) ops
  obtain ⟨hle, hstop⟩ := htracked.emitted.inStream.1 g (hbalanced ▸ hg)
  refine ⟨hle, hstop.trans ?_⟩
  rw [← htracked.samples, Engine.samples, Nat.mul_add]
  exact (Nat.le_add_right _ _).trans (Nat.le_add_left _ _)

/-- Every frame starts before the end of the samples pushed. -/
theorem history_frame (cmvn : Cmvn F32) (o : VadOptions F32) (ops : List (Op F32)) :
    let s : Vad F32 F64 × Ledger F32 := history pf cmvn o ops
    ∀ f ∈ s.2.frames, f.frameIndex * frameShiftSamples < s.2.samples := by
  intro s f hf
  have hnumbered : (progress pf s).Numbered :=
    history_invariant (P := fun s => (progress pf s).Numbered) pf cmvn o rfl
      (record_numbered pf) ops
  have htracked : Tracked pf s :=
    history_invariant pf cmvn o (tracked_new pf cmvn o) (record_tracked pf) ops
  have hindex : f.frameIndex < s.1.frameCount :=
    List.mem_range.mp (hnumbered ▸ List.mem_map_of_mem hf)
  have hsamples : s.1.features.pcmTail.length +
      160 * (s.1.frameCount + s.1.runner.featScratch.length) = s.2.samples := htracked.samples
  rw [frameShiftSamples]
  omega

/-- For the first 97 days of a stream, after any calls, the times of every segment and of
every frame are exact, whatever `f64` makes of the seconds: 62500 ns for each sample, and
10 ms for each frame. -/
theorem times_exact (cmvn : Cmvn F32) (o : VadOptions F32) (ops : List (Op F32)) :
    let s : Vad F32 F64 × Ledger F32 := history pf cmvn o ops
    s.2.samples < 2 ^ 23 * 16000 →
      (∀ g ∈ s.2.delivered ++ s.1.pendingSegments,
        g.start = some (.fromNanos (62500 * g.startSample)) ∧
        g.stop = some (.fromNanos (62500 * g.endSample)) ∧
        g.duration = some (.fromNanos (62500 * g.endSample - 62500 * g.startSample))) ∧
      ∀ f ∈ s.2.frames, f.timestamp = some (.fromMillis (10 * f.frameIndex)) := by
  intro s hshort
  refine ⟨fun g hg => ?_, fun f hf => ?_⟩
  · obtain ⟨hle, hstop⟩ := history_segment pf cmvn o ops g hg
    have hend : g.endSample < 2 ^ 23 * 16000 := hstop.trans_lt hshort
    refine ⟨fromSecsF64_sampleSecs (hle.trans_lt hend), fromSecsF64_sampleSecs hend, ?_⟩
    rw [← Nat.mul_sub]
    exact fromSecsF64_sampleSecs ((Nat.sub_le _ _).trans_lt hend)
  · have hframe := (history_frame pf cmvn o ops f hf).trans hshort
    rw [FrameResult.timestamp, fromSecsF64_sampleSecs hframe, fromNanos_frame]

/-- A second of a constant signal, which a model that hears speech everywhere has scored. -/
theorem times_exact_second :
    let model : StreamingModel ℝ := .ofStep fun caches _ => (caches, 1)
    let s : Vad ℝ ℝ × Ledger ℝ := history .exact ⟨fun _ => 0, fun _ => 1⟩ .new
      [.pushSamples model.session (List.replicate 16000 1), .finish]
    s.2.samples = 16000 ∧
      ∀ g ∈ s.2.delivered, g.stop = some (.fromNanos (62500 * g.endSample)) := by
  intro model s
  have hpushed (pcm : List ℝ) :
      (history .exact ⟨fun _ => 0, fun _ => 1⟩ .new [.pushSamples model.session pcm, .finish] :
        Vad ℝ ℝ × Ledger ℝ).2.samples = pcm.length := Nat.zero_add _
  have hsamples : s.2.samples = 16000 := (hpushed _).trans List.length_replicate
  refine ⟨hsamples, fun g hg => ?_⟩
  have hshort : s.2.samples < 2 ^ 23 * 16000 := by
    rw [hsamples]
    decide
  have htimes := times_exact .exact ⟨fun _ => 0, fun _ => 1⟩ .new
    [.pushSamples model.session (List.replicate 16000 1), .finish] hshort
  exact (htimes.1 g (List.mem_append_left _ hg)).2.1

/-- The audio of a stream: the samples pushed since construction or the last reset. -/
def audio : List (Op F32) → List F32 :=
  List.foldl (fun pcm op =>
    match op with
    | .pushSamples _ new => pcm ++ new
    | .finish => pcm
    | .setOptions _ => pcm
    | .reset => []) []

theorem length_audio (cmvn : Cmvn F32) (o : VadOptions F32) (ops : List (Op F32)) :
    (audio ops).length = (history pf cmvn o ops : Vad F32 F64 × Ledger F32).2.samples := by
  induction ops using List.reverseRecOn with
  | nil => rfl
  | append_singleton ops op ih =>
    rw [history_append, audio, List.foldl_append]
    cases op with
    | pushSamples session pcm => exact (List.length_append).trans (congrArg (· + pcm.length) ih)
    | finish => exact ih
    | setOptions options => exact ih
    | reset => rfl

/-- A caller that keeps the audio of a stream gets the samples of every segment by slicing
it, as many as the segment counts and from where it starts. On a target whose `usize` cannot
hold a bound, the slice of the saturated range panics as that of the exact range would. -/
theorem slice_segment (cmvn : Cmvn F32) (o : VadOptions F32) (ops : List (Op F32))
    (usizeMax : ℕ) (pcm : List F32) (hpcm : pcm.length < usizeMax) :
    let s : Vad F32 F64 × Ledger F32 := history pf cmvn o ops
    let slice (g : SpeechSegment) :=
      Checked.slice? pcm (g.rangeUsize usizeMax).1 (g.rangeUsize usizeMax).2
    (∀ g, slice g = Checked.slice? pcm g.startSample g.endSample) ∧
      (audio ops <+: pcm → ∀ g ∈ s.2.delivered ++ s.1.pendingSegments,
        ∃ xs, slice g = some xs ∧ xs.length = g.sampleCount ∧
          xs <+: (audio ops).drop g.startSample) := by
  intro s slice
  have hslice (g : SpeechSegment) : slice g = Checked.slice? pcm g.startSample g.endSample :=
    slice?_rangeUsize hpcm g
  refine ⟨hslice, fun hkept g hg => ?_⟩
  obtain ⟨rest, rfl⟩ := hkept
  obtain ⟨hle, hstop⟩ := history_segment pf cmvn o ops g hg
  rw [← length_audio pf cmvn o ops] at hstop
  have hin : g.endSample ≤ (audio ops ++ rest).length := by
    rw [List.length_append]
    exact hstop.trans (Nat.le_add_right _ _)
  have hfits : g.endSample - g.startSample ≤ ((audio ops).drop g.startSample).length := by
    rw [List.length_drop]
    exact Nat.sub_le_sub_right hstop _
  refine ⟨_, (hslice g).trans (Checked.slice?_eq hle hin), ?_, ?_⟩
  · rw [List.length_take, List.length_drop, SpeechSegment.sampleCount]
    omega
  · rw [List.drop_append_of_le_length (hle.trans hstop), List.take_append_of_le_length hfits]
    exact List.take_prefix _ _

/-- On a target with a `usize` of 16 bits: the audio of a segment that a push delivers, and a
segment beyond every bound. -/
theorem slice_segment_clock :
    let pcm : List ℝ := (List.range 16000).map Nat.cast
    let ops : List (Op ℝ) := [.pushSamples (StreamingModel.clock 10 40).session pcm]
    let s : Vad ℝ ℝ × Ledger ℝ := history .exact ⟨fun _ => 0, fun _ => 1⟩ unsmoothed ops
    let slice (g : SpeechSegment) :=
      Checked.slice? pcm (g.rangeUsize 65535).1 (g.rangeUsize 65535).2
    s.2.delivered ++ s.1.pendingSegments = [⟨800, 9440⟩] ∧
      (∃ xs, slice ⟨800, 9440⟩ = some xs ∧ xs.length = 8640 ∧ xs <+: pcm.drop 800) ∧
      slice ⟨800, 70000⟩ = Checked.slice? pcm 800 70000 := by
  intro pcm ops s slice
  have hlength : pcm.length = 16000 := by simp [pcm]
  have hsegments : s.2.delivered ++ s.1.pendingSegments = [⟨800, 9440⟩] := by
    refine (segments_chunks .exact (.clock 10 40) ⟨fun _ => 0, fun _ => 1⟩ unsmoothed
      [pcm]).trans ?_
    rw [List.flatten_singleton]
    exact clock_segments hlength .exact _
  have haudio : audio ops = pcm := List.nil_append pcm
  clear_value pcm
  obtain ⟨hslice, hkept⟩ := @slice_segment ℝ ℝ _ _ _ .exact ⟨fun _ => 0, fun _ => 1⟩ unsmoothed ops
    65535 pcm (by rw [hlength]; decide)
  have hdelivered : (⟨800, 9440⟩ : SpeechSegment) ∈ s.2.delivered ++ s.1.pendingSegments := by
    rw [hsegments]
    exact List.mem_singleton_self _
  obtain ⟨xs, hxs, hcount, hprefix⟩ := hkept (haudio ▸ List.prefix_refl pcm) _ hdelivered
  rw [haudio] at hprefix
  exact ⟨hsegments, ⟨xs, hxs, hcount, hprefix⟩, hslice _⟩

end Vad

end Engines

end FireredVad
