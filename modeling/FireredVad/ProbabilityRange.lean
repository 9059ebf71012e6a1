import FireredVad.Binary32
import FireredVad.RecentFrames

/-!
# Raw probabilities are probabilities

Whatever a session answers, NaN and infinities included, the frames carry numbers between
zero and one.
-/

namespace FireredVad

/-- A number between zero and one. -/
def InUnit {bound : ℝ} (p : Ranged bound) : Prop := ∃ x ∈ Set.Icc (0 : ℝ) 1, p = .ofExact x

section Bounds

variable {bound x : ℝ}

theorem abs_le_of_unit (hbound : 1 ≤ bound) (hx : x ∈ Set.Icc (0 : ℝ) 1) : |x| ≤ bound := by
  rw [abs_of_nonneg hx.1]
  exact hx.2.trans hbound

theorem one_le_f32Max : 1 ≤ f32Max := le_trans (by norm_num) f32Max_ge

theorem lit_ofExact {q : ℚ} (hq : (q : ℝ) = x) : (FloatOps.lit q : Ranged bound) = .ofExact x :=
  congrArg Ranged.ofExact hq

end Bounds

/-- What is not finite is read as zero. -/
theorem clampProbability_inUnit (p : Binary32) : InUnit (clampProbability p) := by
  have hzero : (FloatOps.lit 0 : Binary32) = .ofExact 0 := lit_ofExact Rat.cast_zero
  have hone : (FloatOps.lit 1 : Binary32) = .ofExact 1 := lit_ofExact Rat.cast_one
  have h0 : |(0 : ℝ)| ≤ f32Max := abs_le_of_unit one_le_f32Max ⟨le_rfl, zero_le_one⟩
  have h1 : |(1 : ℝ)| ≤ f32Max := abs_le_of_unit one_le_f32Max ⟨zero_le_one, le_rfl⟩
  cases p with
  | finite x hx =>
    have hclamp : clampProbability (.finite x hx : Binary32) =
        clamp (.finite x hx) (.finite 0 h0) (.finite 1 h1) := by
      rw [← Ranged.ofExact_eq h0, ← Ranged.ofExact_eq h1, ← hzero, ← hone]
      exact if_pos rfl
    rw [hclamp, clamp]
    simp only [Ranged.finite_lt_finite]
    split
    · exact ⟨0, ⟨le_rfl, zero_le_one⟩, (Ranged.ofExact_eq h0).symm⟩
    · split
      · exact ⟨1, ⟨zero_le_one, le_rfl⟩, (Ranged.ofExact_eq h1).symm⟩
      · exact ⟨x, ⟨not_lt.mp ‹_›, not_lt.mp ‹_›⟩, (Ranged.ofExact_eq hx).symm⟩
  | infinite n => exact ⟨0, ⟨le_rfl, zero_le_one⟩, hzero⟩
  | nan => exact ⟨0, ⟨le_rfl, zero_le_one⟩, hzero⟩

namespace Postprocessor

variable {F32 F64 : Type} [FloatOps F32] [FloatOps F64] [FloatCast F32 F64]

theorem frames_rawProb (p : Postprocessor F32 F64) (raws : List F32) :
    (p.frames raws).map FrameResult.rawProb = raws := by
  induction raws generalizing p with
  | nil => rfl
  | cons raw raws ih => exact congrArg (raw :: ·) (ih (p.pushProbability raw).1)

end Postprocessor

variable {F64 : Type} [FloatMath F64] [FloatCast Binary32 F64]

namespace Progress

def Unit (p : Progress Binary32 F64) : Prop := ∀ f ∈ p.frames, InUnit f.rawProb

theorem Unit.consume {p : Progress Binary32 F64} (h : p.Unit)
    (outputs : List Binary32 × Caches Binary32) : (p.consume outputs).Unit := by
  intro f hf
  rcases List.mem_append.mp hf with hf | hf
  · exact h f hf
  · have hraw : f.rawProb ∈ outputs.1.map clampProbability := by
      rw [← p.detector.frames_rawProb (outputs.1.map clampProbability)]
      exact List.mem_map_of_mem hf
    obtain ⟨output, -, hclamp⟩ := List.mem_map.mp hraw
    exact hclamp ▸ clampProbability_inUnit output

theorem Push.unit {session : Session Binary32} {p q : Progress Binary32 F64}
    {pcm : List Binary32} {a : Except Error PUnit} (h : Push session p pcm q a) (hp : p.Unit) :
    q.Unit := by
  have hbuffer : (p.buffer pcm).Unit := hp
  cases h with
  | drain => exact hp
  | wait => exact hbuffer
  | fail => exact hbuffer
  | answer => exact hbuffer.consume _

end Progress

namespace Vad

variable (pf : Platform Binary32)

theorem record_unit (s : Vad Binary32 F64 × Ledger Binary32) (op : Op Binary32)
    (h : (progress pf s).Unit) : (progress pf (record pf s op)).Unit := by
  cases op with
  | pushSamples session pcm => exact (progress_push pf s session pcm).unit h
  | finish => exact h
  | setOptions options => exact h
  | reset => rintro _ ⟨⟩

/-- Every frame of every stream, whatever the sessions answer and whichever calls fail. -/
theorem rawProb_inUnit (cmvn : Cmvn Binary32) (o : VadOptions Binary32)
    (ops : List (Op Binary32)) :
    let s : Vad Binary32 F64 × Ledger Binary32 := history pf cmvn o ops
    (∀ f ∈ s.2.frames, InUnit f.rawProb) ∧ ∀ f ∈ s.1.recentFrames, InUnit f.rawProb := by
  intro s
  have hunit : (progress pf s).Unit :=
    history_invariant (P := fun s => (progress pf s).Unit) pf cmvn o (by rintro _ ⟨⟩)
      (record_unit pf) ops
  have hrecorded : Recorded pf s :=
    history_invariant pf cmvn o (recorded_new pf cmvn o) (record_recorded pf) ops
  exact ⟨hunit, fun f hf => hunit f (hrecorded.suffix.subset hf)⟩

end Vad

end FireredVad
