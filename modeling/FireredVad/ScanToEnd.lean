import FireredVad.ReferenceScan
import FireredVad.SpeechCoverage

/-!
# The scan of a finished stream

The end of a stream acts as the silence that closes a segment, and cuts what it closes at
the last frame. The segments of a finished stream are therefore those of the scan over its
flags and enough silence behind them, without what reaches past the end.
-/

namespace FireredVad

/-- What there is of a frame pair before frame `n`. -/
def cutAt (n : ℕ) (f : ℕ × ℕ) : Option (ℕ × ℕ) :=
  if f.1 < n then some (f.1, min f.2 n) else none

theorem cutAt_of_lt {n : ℕ} {f : ℕ × ℕ} (hle : f.1 ≤ f.2) (hlt : f.2 < n) :
    cutAt n f = some f := by
  rw [cutAt, if_pos (Nat.lt_of_le_of_lt hle hlt), min_eq_left hlt.le]

theorem cutAt_of_ge {n start stop : ℕ} (h : n ≤ stop) :
    cutAt n (start, stop) = if start < n then some (start, n) else none := by
  rw [cutAt, min_eq_right h]

namespace Segmenter

/-- The current run of silence in an open segment is still too short to close it. -/
def Undecided (lim : FrameLimits) (a : Segmenter) : Prop :=
  ∀ quiet start base, a.phase = .active quiet start base → quiet < lim.fall

theorem step_undecided (lim : FrameLimits) (a : Segmenter) (x : Bool) :
    (a.step lim x).1.Undecided lim := by
  have hfall : 0 < lim.fall := Nat.lt_of_lt_of_le Nat.two_pos (le_max_left _ _)
  obtain ⟨now, floor, phase⟩ := a
  intro quiet start base h
  cases phase with
  | idle run =>
    cases x with
    | false => cases h
    | true =>
      simp only [step] at h
      split at h <;> cases h
      exact hfall
  | active quiet' start' base' =>
    cases x with
    | true =>
      simp only [step] at h
      split at h <;> cases h <;> exact hfall
    | false =>
      simp only [step] at h
      split at h
      · cases h
      · rename_i hopen
        cases h
        exact Nat.lt_of_not_le hopen

/-- What a run of frames has emitted ends before the current frame, and what is open is
still undecided. -/
structure Past (lim : FrameLimits) (a : Segmenter) (out : List (ℕ × ℕ)) : Prop where
  ordered : a.Ordered out
  undecided : a.Undecided lim
  ended : ∀ f ∈ out, f.2 < a.now

theorem past_run (lim : FrameLimits) (b : List Bool) :
    Past lim (Transducer.run (step lim) {} b).1 (emitted (Transducer.run (step lim) {} b).2) := by
  let P (_ : List Bool) (a : Segmenter) (out : List (Option (ℕ × ℕ))) : Prop :=
    Past lim a (emitted out)
  have hinit : P [] {} [] := ⟨ordered_initial, by rintro _ _ _ ⟨⟩, by simp⟩
  refine Transducer.run_induction (P := P) b hinit fun pre x _ h => ?_
  obtain ⟨hordered, hundecided, hended⟩ := h
  refine ⟨?_, step_undecided lim _ x, ?_⟩
  · rw [emitted_append, emitted_cons, emitted_nil, List.append_nil]
    exact hordered.advance (step_advances lim hordered.bounded x)
  · intro f hf
    rw [step_now]
    rw [emitted_append, emitted_cons, emitted_nil, List.append_nil, List.mem_append,
      Option.mem_toList] at hf
    rcases hf with hf | hf
    · exact (hended f hf).trans (Nat.lt_succ_self _)
    · obtain ⟨_, _, _, -, rfl⟩ := step_emits hf
      exact Nat.lt_succ_self _

/-- Silence opens nothing. -/
theorem run_silence_idle (lim : FrameLimits) (now floor run k : ℕ) :
    emitted (Transducer.run (step lim) ⟨now, floor, .idle run⟩ (List.replicate k false)).2 = [] := by
  induction k generalizing now run with
  | zero => rfl
  | succ k ih =>
    rw [List.replicate_succ, Transducer.run_cons, emitted_cons]
    exact ih (now + 1) 0

/-- Enough silence closes what is open, after the frames that are still missing. -/
theorem run_silence_active (lim : FrameLimits) {now floor quiet start base k : ℕ}
    (hquiet : quiet < lim.fall) (hk : lim.fall ≤ quiet + k) :
    emitted (Transducer.run (step lim) ⟨now, floor, .active quiet start base⟩
      (List.replicate k false)).2 = [(start, now + (lim.fall - quiet) - 1)] := by
  induction k generalizing now quiet with
  | zero => omega
  | succ k ih =>
    rw [List.replicate_succ, Transducer.run_cons, emitted_cons]
    by_cases hclose : lim.fall ≤ quiet + 1
    · have hlast : now + (lim.fall - quiet) - 1 = now := by omega
      simp only [step, if_pos hclose, hlast]
      rw [run_silence_idle]
      rfl
    · have hnext : now + (lim.fall - quiet) - 1 = now + 1 + (lim.fall - (quiet + 1)) - 1 := by omega
      simp only [step, if_neg hclose, hnext]
      exact ih (Nat.lt_of_not_le hclose) (by omega)

/-- The end of a stream emits what silence would, cut at the current frame. -/
theorem Past.finish {lim : FrameLimits} {a : Segmenter} {out : List (ℕ × ℕ)}
    (h : Past lim a out) :
    (out ++ emitted (Transducer.run (step lim) a (List.replicate lim.fall false)).2).filterMap
      (cutAt a.now) = out ++ a.finish.2.toList := by
  obtain ⟨hordered, hundecided, hended⟩ := h
  have hpast : out.filterMap (cutAt a.now) = out.filterMap some :=
    List.filterMap_congr fun f hf => cutAt_of_lt (hordered.le_floor f hf).1 (hended f hf)
  rw [List.filterMap_append, hpast, List.filterMap_some]
  refine congrArg (out ++ ·) ?_
  obtain ⟨now, floor, phase⟩ := a
  cases phase with
  | idle run =>
    rw [run_silence_idle]
    rfl
  | active quiet start base =>
    have hquiet : quiet < lim.fall := hundecided _ _ _ rfl
    have hstop : now ≤ now + (lim.fall - quiet) - 1 := by omega
    rw [run_silence_active lim hquiet (Nat.le_add_left _ _), List.filterMap_cons,
      List.filterMap_nil, cutAt_of_ge hstop]
    by_cases hstart : start < now <;> simp [Segmenter.finish, hstart]

end Segmenter

namespace Postprocessor

variable {F32 F64 : Type} [FloatOps F32] [FloatOps F64] [FloatCast F32 F64]

theorem flags_length (p : Postprocessor F32 F64) (raws : List F32) :
    (p.flags raws).length = raws.length := by
  simp [flags, frames, pushAll]

/-- A stream that ends has the segments of the scan over its flags and `S` silent frames,
each as far as it starts before the end, and cut there. -/
theorem segmentsToEnd_eq_scan (o : VadOptions F32) (probs : List F32) :
    let p : Postprocessor F32 F64 := new o
    let S := max 2 o.minSilenceFrames
    ∃ out : List (ℕ × ℕ),
      p.segmentsToEnd probs =
        (out.filterMap (cutAt probs.length)).map (fun f => ⟨160 * f.1, 160 * f.2⟩) ∧
      ∀ xs, ReferenceScan.Scan (p.flags probs ++ List.replicate S false)
        (max 2 o.minSpeechFrames) S o.padStartFrames o.maxSpeechFrames 0 none xs ↔ xs = out := by
  intro p S
  let b := p.flags probs
  let r := Transducer.run (Segmenter.step o.limits) {} b
  have hscan := ReferenceScan.scan_run o.limits (b ++ List.replicate S false)
  rw [Transducer.run_append, emitted_append] at hscan
  refine ⟨_, ?_, fun xs => ⟨fun hx => hx.unique hscan, fun hx => hx ▸ hscan⟩⟩
  have hnow : r.1.now = probs.length := by
    rw [← flags_length p probs]
    exact Transducer.run_induction (P := fun pre (a : Segmenter) _ => a.now = pre.length) b rfl
      fun pre x _ h => by simpa using h
  have hpast : Segmenter.Past o.limits r.1 (emitted r.2) := Segmenter.past_run o.limits b
  have hfinish := hpast.finish
  rw [hnow] at hfinish
  refine (segmentsToEnd_eq o probs).trans ?_
  refine (congrArg (List.map toSamples) hfinish.symm).trans (List.map_congr_left fun f _ => ?_)
  simp [toSamples, frameShiftSamples, Nat.mul_comm]

end Postprocessor

end FireredVad
