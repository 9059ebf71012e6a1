import FireredVad.LogMel
import FireredVad.Reset

/-!
# The choice of a backend

The dispatchers pick kernels by the CPU that a process runs on and by the flags of its
build. In exact arithmetic nothing that a caller can observe depends on that choice.
-/

namespace FireredVad
open Simd

namespace Vad

section Views

variable {F32 F64 : Type} [FloatMath F32] [FloatMath F64] [FloatCast F32 F64]
  {pf pf' : Platform F32}

/-- Two engines on two platforms, with the same view, answer alike and stay that way. -/
theorem applyObserved_platforms {v v' : Vad F32 F64} (h : v.view pf = v'.view pf')
    (op : Op F32) :
    (v.applyObserved pf op).1.view pf = (v'.applyObserved pf' op).1.view pf' ∧
      (v.applyObserved pf op).2 = (v'.applyObserved pf' op).2 := by
  have happly : ((v.apply pf op).1.view pf, (v.apply pf op).2) =
      ((v'.apply pf' op).1.view pf', (v'.apply pf' op).2) := by
    rw [← apply_view, ← apply_view, h]
  obtain ⟨hview, hanswer⟩ := Prod.mk.inj happly
  exact ⟨hview, Prod.ext hanswer (congrArg Engine.observe hview)⟩

end Views

variable {F32 F64 : Type} [ExactMath F32] [FloatMath F64] [FloatCast F32 F64]

/-- In exact arithmetic an engine that may be in any state gives the same answers and shows
the same state, operation by operation, on any two CPUs with the same transform. -/
theorem run_backend_independent (fft : Slice (Complex F32) fftSize → Slice (Complex F32) fftSize)
    (t t' : Target) (v : Vad F32 F64) (ops : List (Op F32)) :
    (Transducer.run (applyObserved ⟨t, fft⟩) v ops).2 =
      (Transducer.run (applyObserved ⟨t', fft⟩) v ops).2 := by
  have hfeature : v.features.windowFeature ⟨t, fft⟩ = v.features.windowFeature ⟨t', fft⟩ := by
    funext window
    rw [FeatureExtractor.windowFeature_eq, FeatureExtractor.windowFeature_eq]
  have hview : v.view ⟨t, fft⟩ = v.view ⟨t', fft⟩ := by
    rw [view, hfeature]
    rfl
  have hrun := Transducer.run_simulation_same (O := Eq)
    (R := fun w w' : Vad F32 F64 => w.view ⟨t, fft⟩ = w'.view ⟨t', fft⟩)
    (fun w w' op h => applyObserved_platforms h op) hview ops
  exact List.forall₂_eq_eq_eq ▸ hrun.2

end Vad

end FireredVad
