import FireredVad.Dispatch

/-!
# The Mel filterbank

`extract` works in three buffers that keep what the last call left in them: the FFT
buffer, the samples and the power spectrum. Each is overwritten before it is read, so a
feature depends on the window and the fixed tables alone.
-/

namespace FireredVad
open Simd

/-- What the front-end takes from outside the crate: the CPU it runs on, and the in-place
forward transform `Radix4::process` of `rustfft`. -/
structure Platform (F : Type) where
  target : Target
  fft : Slice (Complex F) fftSize → Slice (Complex F) fftSize

/-- A sparse triangular filter. The bins it reads exist. -/
structure MelFilter (F : Type) where
  startBin : ℕ
  weights : List F
  inRange : startBin + weights.length ≤ fftBins

theorem MelFilter.bin_lt {F : Type} (f : MelFilter F) (j : Fin f.weights.length) :
    f.startBin + j < fftBins :=
  Nat.lt_of_lt_of_le (Nat.add_lt_add_left j.isLt f.startBin) f.inRange

theorem fftBins_le_fftSize : fftBins ≤ fftSize := by decide

/-- `start_bin`, `end_bin` and `found_any` of the search for the bins of one filter. -/
structure BinSearch where
  startBin : ℕ
  endBin : ℕ
  foundAny : Bool
  deriving DecidableEq, Repr

namespace BinSearch

/-- The search after the bins `0..n`, of which `hit` selects some. -/
def run (hit : ℕ → Bool) : ℕ → BinSearch
  | 0 => ⟨fftSize / 2, 0, false⟩
  | i + 1 =>
    let r := run hit i
    if hit i then ⟨if r.foundAny then r.startBin else i, i, true⟩ else r

theorem run_range (hit : ℕ → Bool) (n : ℕ) (h : (run hit n).foundAny = true) :
    (run hit n).startBin ≤ (run hit n).endBin ∧ (run hit n).endBin < n := by
  induction n with
  | zero => cases h
  | succ n ih =>
    simp only [run] at h ⊢
    split
    · dsimp only
      split
      · rename_i hfound
        have := ih hfound
        omega
      · omega
    · rename_i hmiss
      rw [if_neg hmiss] at h
      have := ih h
      omega

end BinSearch

section Tables

variable {F : Type} [FloatMath F]

/-- The Kaldi convention `1127 ln(1 + f / 700)`. -/
def hzToMel (hz : F) : F :=
  FloatOps.lit 1127 * FloatMath.ln (FloatOps.lit 1 + hz / FloatOps.lit 700)

/-- Centre frequency of an FFT bin in Hz. -/
def fftBinHz (i : ℕ) : F :=
  FloatOps.lit i * FloatOps.lit sampleRateHz / FloatOps.lit fftSize

def melLowFreqHz : F := FloatOps.lit 20

def melHighFreqHz : F := FloatOps.lit 8000

/-- Filter `b` of `build_mel_filters`, for the mel scale `toMel`. -/
def buildMelFilter (toMel : F → F) (b : ℕ) : MelFilter F :=
  let melLow := toMel melLowFreqHz
  let melHigh := toMel melHighFreqHz
  let melFreqDelta := (melHigh - melLow) / (FloatOps.lit numMelBins + FloatOps.lit 1)
  let leftMel := melLow + FloatOps.lit b * melFreqDelta
  let centerMel := melLow + (FloatOps.lit b + FloatOps.lit 1) * melFreqDelta
  let rightMel := melLow + (FloatOps.lit b + FloatOps.lit 2) * melFreqDelta
  let mel (i : ℕ) : F := toMel (fftBinHz i)
  let hit (i : ℕ) : Bool := decide (leftMel < mel i) && decide (mel i < rightMel)
  let weight (i : ℕ) : F :=
    if mel i ≤ centerMel then (mel i - leftMel) / (centerMel - leftMel)
    else (rightMel - mel i) / (rightMel - centerMel)
  let r := BinSearch.run hit (fftSize / 2)
  if h : r.foundAny then
    { startBin := r.startBin
      weights := (List.range' r.startBin (r.endBin - r.startBin + 1)).map weight
      inRange := by
        have hrange : r.startBin ≤ r.endBin ∧ r.endBin < fftSize / 2 :=
          BinSearch.run_range hit _ h
        simp only [List.length_map, List.length_range', fftBins]
        omega }
  else { startBin := 0, weights := [], inRange := Nat.zero_le _ }

def buildMelFilters : Fin numMelBins → MelFilter F := fun b => buildMelFilter hzToMel b

/-- Computed in `F64` and rounded once at the end. -/
def buildPoveyWindow (F64 : Type) [FloatMath F64] [FloatCast F F64] :
    Slice F frameLengthSamples :=
  let a : F64 := FloatMath.tau / FloatOps.lit ((frameLengthSamples - 1 : ℕ) : ℚ)
  fun i =>
    let iFl : F64 := FloatOps.lit (i : ℕ)
    FloatCast.narrow (FloatMath.powf
      ((FloatOps.lit (1 / 2) : F64) - FloatOps.lit (1 / 2) * FloatMath.cos (a * iFl))
      (FloatOps.lit (85 / 100)))

end Tables

structure MelFilterbank (F : Type) where
  fftBuf : Slice (Complex F) fftSize
  poveyWindow : Slice F frameLengthSamples
  filters : Fin numMelBins → MelFilter F
  samplesScratch : Slice F frameLengthSamples
  powerScratch : Slice F fftBins

namespace MelFilterbank

variable {F : Type} [FloatMath F]

def new (F64 : Type) [FloatMath F64] [FloatCast F F64] : MelFilterbank F where
  fftBuf := fun _ => ⟨FloatOps.lit 0, FloatOps.lit 0⟩
  poveyWindow := buildPoveyWindow F64
  filters := buildMelFilters
  samplesScratch := fun _ => FloatOps.lit 0
  powerScratch := fun _ => FloatOps.lit 0

/-- The samples become the real parts; the tail and all imaginary parts become zero. -/
def fillFft (buf : Slice (Complex F) fftSize) (samples : Slice F frameLengthSamples) :
    Slice (Complex F) fftSize :=
  let buf : Slice (Complex F) fftSize := fun i =>
    if h : i < frameLengthSamples then ⟨samples ⟨i, h⟩, FloatOps.lit 0⟩ else buf i
  fun i => if frameLengthSamples ≤ i then ⟨FloatOps.lit 0, FloatOps.lit 0⟩ else buf i

/-- The dot product of one filter with its bins of the power spectrum, as a logarithm. -/
def filterEnergy (pf : Platform F) (power : Slice F fftBins) (f : MelFilter F) : F :=
  let bins : Slice F f.weights.length := fun j =>
    power ⟨f.startBin + j, by have := f.inRange; omega⟩
  Dispatch.melDotLog pf.target bins fun j => f.weights.get j

/-- The log-Mel feature of a window, written over `out`. -/
def extract (pf : Platform F) (bank : MelFilterbank F) (window : Slice F frameLengthSamples)
    (out : Slice F numMelBins) : MelFilterbank F × Slice F numMelBins :=
  let samples := Dispatch.dcRemove pf.target window bank.samplesScratch
  let samples := Dispatch.preEmphasis samples
  let samples := Dispatch.windowApply pf.target samples bank.poveyWindow
  let buf := pf.fft (fillFft bank.fftBuf samples)
  let power := Dispatch.powerSpectrum pf.target
    (fun i : Fin fftBins => buf (i.castLE (by decide))) bank.powerScratch
  ({ bank with fftBuf := buf, samplesScratch := samples, powerScratch := power },
    zipMut out bank.filters fun _ f => filterEnergy pf power f)

/-- The two loops together write every entry. -/
theorem fillFft_eq (buf : Slice (Complex F) fftSize) (samples : Slice F frameLengthSamples) :
    fillFft buf samples = fun i : Fin fftSize =>
      if h : i < frameLengthSamples then ⟨samples ⟨i, h⟩, FloatOps.lit 0⟩
      else ⟨FloatOps.lit 0, FloatOps.lit 0⟩ := by
  funext i
  simp only [fillFft]
  by_cases h : i.val < frameLengthSamples
  · rw [if_neg (Nat.not_le.mpr h), dif_pos h, dif_pos h]
  · rw [if_pos (Nat.le_of_not_lt h), dif_neg h]

theorem fillFft_overwrites (buf buf' : Slice (Complex F) fftSize)
    (samples : Slice F frameLengthSamples) : fillFft buf samples = fillFft buf' samples := by
  rw [fillFft_eq, fillFft_eq]

/-- Two banks with the same tables, whatever is in their buffers. -/
structure SameTables (bank bank' : MelFilterbank F) : Prop where
  poveyWindow : bank'.poveyWindow = bank.poveyWindow
  filters : bank'.filters = bank.filters

theorem extract_sameTables (pf : Platform F) (bank : MelFilterbank F)
    (window : Slice F frameLengthSamples) (out : Slice F numMelBins) :
    SameTables bank (bank.extract pf window out).1 := ⟨rfl, rfl⟩

/-- No buffer leaves a trace in a feature. -/
theorem SameTables.extract {bank bank' : MelFilterbank F} (h : SameTables bank bank')
    (pf : Platform F) (window : Slice F frameLengthSamples) (out out' : Slice F numMelBins) :
    (bank'.extract pf window out').2 = (bank.extract pf window out).2 := by
  simp only [MelFilterbank.extract, h.poveyWindow, h.filters]
  rw [Dispatch.dcRemove_overwrites _ _ bank'.samplesScratch bank.samplesScratch,
    fillFft_overwrites bank'.fftBuf bank.fftBuf,
    Dispatch.powerSpectrum_overwrites _ _ bank'.powerScratch bank.powerScratch]
  rfl

end MelFilterbank

end FireredVad
