import FireredVad.ExactKernels
import FireredVad.Triangles

/-!
# The mel filters partition unity

The mel values of the FFT bins increase, so the bins strictly inside a triangle form an
interval, and the first and the last of them say which they are. The anchors increase too,
and the triangles over them sum to one.
-/

namespace FireredVad
open Simd Triangles

namespace BinSearch

variable {hit : ℕ → Bool} {n : ℕ}

/-- The search keeps the first and the last bin that `hit` selects. -/
structure Finds (hit : ℕ → Bool) (n : ℕ) (r : BinSearch) : Prop where
  start : r.foundAny = true → hit r.startBin = true
  stop : r.foundAny = true → r.endBin < n ∧ hit r.endBin = true
  between : ∀ i < n, hit i = true → r.foundAny = true ∧ r.startBin ≤ i ∧ i ≤ r.endBin

theorem run_finds (hit : ℕ → Bool) (n : ℕ) : Finds hit n (run hit n) := by
  induction n with
  | zero => exact ⟨nofun, nofun, nofun⟩
  | succ n ih =>
    by_cases hn : hit n = true
    · simp only [run, if_pos hn]
      refine ⟨fun _ => ?_, fun _ => ⟨n.lt_succ_self, hn⟩, fun i hi hhit => ⟨rfl, ?_, ?_⟩⟩
      · dsimp only
        split
        · rename_i hfound
          exact ih.start hfound
        · exact hn
      · dsimp only
        rcases Nat.lt_succ_iff_lt_or_eq.mp hi with hlt | rfl
        · obtain ⟨hfound, hstart, -⟩ := ih.between i hlt hhit
          rw [if_pos hfound]
          exact hstart
        · split
          · rename_i hfound
            have hrange := run_range hit i hfound
            omega
          · exact le_rfl
      · exact Nat.le_of_lt_succ hi
    · simp only [run, if_neg hn]
      refine ⟨ih.start, fun hfound => ?_, fun i hi hhit => ?_⟩
      · exact ⟨(ih.stop hfound).1.trans n.lt_succ_self, (ih.stop hfound).2⟩
      · rcases Nat.lt_succ_iff_lt_or_eq.mp hi with hlt | rfl
        · exact ih.between i hlt hhit
        · exact absurd hhit hn

/-- Where the hits have no gap, the bins from the first to the last are the hits. -/
theorem Finds.interval {r : BinSearch} (h : Finds hit n r)
    (hgap : ∀ i j k, i ≤ j → j ≤ k → hit i = true → hit k = true → hit j = true)
    (hfound : r.foundAny = true) (i : ℕ) :
    r.startBin ≤ i ∧ i ≤ r.endBin ↔ i < n ∧ hit i = true := by
  constructor
  · intro ⟨hstart, hstop⟩
    obtain ⟨hlt, hlast⟩ := h.stop hfound
    exact ⟨hstop.trans_lt hlt, hgap _ i _ hstart hstop (h.start hfound) hlast⟩
  · intro ⟨hlt, hhit⟩
    exact (h.between i hlt hhit).2

end BinSearch

section Stored

variable {F : Type} [FloatMath F]

/-- The mel value of an FFT bin. -/
def binMel (toMel : F → F) (i : ℕ) : F := toMel (fftBinHz i)

/-- The boundary test of `build_mel_filters`. -/
def inside (mel : ℕ → F) (l r : F) (i : ℕ) : Bool := decide (l < mel i) && decide (mel i < r)

/-- The weight of a bin inside the boundaries. -/
def edgeWeight (mel : ℕ → F) (l c r : F) (i : ℕ) : F :=
  if mel i ≤ c then (mel i - l) / (c - l) else (r - mel i) / (r - c)

/-- What `build_mel_filters` stores for a filter with the anchors `l`, `c` and `r`. -/
inductive Stores (mel : ℕ → F) (l c r : F) (f : MelFilter F) : Prop
  | found (hfound : (BinSearch.run (inside mel l r) (fftSize / 2)).foundAny = true)
      (hstart : f.startBin = (BinSearch.run (inside mel l r) (fftSize / 2)).startBin)
      (hweights : f.weights =
        (List.range' (BinSearch.run (inside mel l r) (fftSize / 2)).startBin
          ((BinSearch.run (inside mel l r) (fftSize / 2)).endBin -
            (BinSearch.run (inside mel l r) (fftSize / 2)).startBin + 1)).map
          (edgeWeight mel l c r))
  | empty (hmiss : (BinSearch.run (inside mel l r) (fftSize / 2)).foundAny = false)
      (hstart : f.startBin = 0) (hweights : f.weights = [])

theorem buildMelFilter_stores (toMel : F → F) (b : ℕ) {l c r : F}
    (hleft : toMel melLowFreqHz + FloatOps.lit b *
      ((toMel melHighFreqHz - toMel melLowFreqHz) /
        (FloatOps.lit numMelBins + FloatOps.lit 1)) = l)
    (hcenter : toMel melLowFreqHz + (FloatOps.lit b + FloatOps.lit 1) *
      ((toMel melHighFreqHz - toMel melLowFreqHz) /
        (FloatOps.lit numMelBins + FloatOps.lit 1)) = c)
    (hright : toMel melLowFreqHz + (FloatOps.lit b + FloatOps.lit 2) *
      ((toMel melHighFreqHz - toMel melLowFreqHz) /
        (FloatOps.lit numMelBins + FloatOps.lit 1)) = r) :
    Stores (binMel toMel) l c r (buildMelFilter toMel b) := by
  by_cases hfound : (BinSearch.run (inside (binMel toMel) l r) (fftSize / 2)).foundAny = true
  · subst hleft hcenter hright
    have hf : buildMelFilter toMel b = _ := dif_pos hfound
    rw [hf]
    exact .found hfound rfl rfl
  · subst hleft hcenter hright
    have hf : buildMelFilter toMel b = _ := dif_neg hfound
    rw [hf]
    exact .empty (Bool.eq_false_of_not_eq_true hfound) rfl rfl

end Stored

/-- A linearly ordered field in which literals stand for themselves. The logarithm, the
cosine, the square root and the powers may be anything. -/
class ExactOrder (F : Type) extends ExactMath F, LinearOrder F, IsStrictOrderedRing F

noncomputable instance exactOrderReal : ExactOrder ℝ :=
  { exactMathReal, (inferInstance : LinearOrder ℝ), (inferInstance : IsStrictOrderedRing ℝ) with }

namespace MelFilter

variable {F : Type} [ExactOrder F]

/-- The filter has a weight for each FFT bin strictly inside the triangle over `l`, `c` and
`r`, and for no other. -/
structure Samples (f : MelFilter F) (mel : ℕ → F) (l c r : F) : Prop where
  bins (i : ℕ) : f.startBin ≤ i ∧ i < f.startBin + f.weights.length ↔
    i < fftSize / 2 ∧ l < mel i ∧ mel i < r
  empty : f.weights = [] → f.startBin = 0
  weight (j : ℕ) : ∀ w, f.weights[j]? = some w → w = triangle l c r (mel (f.startBin + j))

/-- What the filter multiplies bin `i` of the power spectrum by. -/
def weightAt (f : MelFilter F) (i : ℕ) : F :=
  if f.startBin ≤ i then f.weights[i - f.startBin]?.getD 0 else 0

theorem weightAt_stored (f : MelFilter F) (j : Fin f.weights.length) :
    f.weightAt (f.startBin + j) = f.weights.get j := by
  rw [weightAt, if_pos (Nat.le_add_right _ _), Nat.add_sub_cancel_left,
    List.getElem?_eq_getElem j.isLt]
  rfl

theorem weightAt_outside {f : MelFilter F} {i : ℕ}
    (h : ¬ (f.startBin ≤ i ∧ i < f.startBin + f.weights.length)) : f.weightAt i = 0 := by
  rw [weightAt]
  split
  · rw [List.getElem?_eq_none (by omega)]
    rfl
  · rfl

/-- A sum over the stored weights is one over all bins. -/
theorem sum_weights (f : MelFilter F) (power : Slice F fftBins) :
    ∑ j : Fin f.weights.length, power ⟨f.startBin + j, f.bin_lt j⟩ * f.weights.get j =
      ∑ i : Fin fftBins, power i * f.weightAt i := by
  apply Fintype.sum_of_injective fun j : Fin f.weights.length =>
    (⟨f.startBin + j, f.bin_lt j⟩ : Fin fftBins)
  · intro j k hjk
    simpa [Fin.ext_iff] using hjk
  · intro i hi
    rw [weightAt_outside, mul_zero]
    intro ⟨hstart, hstop⟩
    exact hi ⟨⟨i - f.startBin, by omega⟩, Fin.ext (Nat.add_sub_cancel' hstart)⟩
  · intro j
    rw [weightAt_stored]

/-- Whatever the backend, `extract` takes the logarithm of the spectrum summed with these
weights. -/
theorem filterEnergy_eq (pf : Platform F) (power : Slice F fftBins) (f : MelFilter F) :
    MelFilterbank.filterEnergy pf power f =
      logEnergy (∑ i : Fin fftBins, power i * f.weightAt i) := by
  rw [← sum_weights, MelFilterbank.filterEnergy, Dispatch.melDotLog]
  cases pf.target.backend with
  | scalar => exact congrArg logEnergy (dot_eq_sum _ _)
  | neon => exact congrArg logEnergy (Neon.dot_eq_sum _ _)
  | sse41 => exact congrArg logEnergy (Sse41.dot_eq_sum _ _)
  | avx2 => exact congrArg logEnergy (Avx2.dot_eq_sum _ _)
  | avx512 => exact congrArg logEnergy (Avx512.dot_eq_sum _ _)

variable {f : MelFilter F} {mel : ℕ → F} {l c r : F}

theorem Samples.weight_mem (h : Samples f mel l c r) (hlc : l < c) (hcr : c < r) {j : ℕ}
    {w : F} (hw : f.weights[j]? = some w) : 0 < w ∧ w ≤ 1 := by
  obtain ⟨hj, -⟩ := List.getElem?_eq_some_iff.mp hw
  obtain ⟨-, hl, hr⟩ := (h.bins (f.startBin + j)).mp ⟨by omega, by omega⟩
  rw [h.weight j w hw]
  exact ⟨triangle_pos hlc hcr hl hr, triangle_le_one hlc hcr⟩

/-- A bin outside the stored range has weight zero, as its triangle has there. -/
theorem Samples.weightAt_eq (h : Samples f mel l c r) (hlc : l < c) (hcr : c < r) {i : ℕ}
    (hi : i < fftSize / 2) : f.weightAt i = triangle l c r (mel i) := by
  by_cases hrange : f.startBin ≤ i ∧ i < f.startBin + f.weights.length
  · obtain ⟨hstart, hstop⟩ := hrange
    have hj : i - f.startBin < f.weights.length := by omega
    have hweight := h.weight (i - f.startBin) _ (List.getElem?_eq_getElem hj)
    rw [Nat.add_sub_cancel' hstart] at hweight
    rw [weightAt, if_pos hstart, List.getElem?_eq_getElem hj]
    exact hweight
  · have houtside : mel i ≤ l ∨ r ≤ mel i := by
      by_contra hinside
      rw [not_or, not_le, not_le] at hinside
      exact hrange ((h.bins i).mpr ⟨hi, hinside⟩)
    rw [triangle_outside hlc hcr houtside, weightAt_outside hrange]

end MelFilter

section Filters

variable {F : Type} [ExactOrder F] {toMel : F → F}

/-- The `k`-th of the 82 anchors: filter `b` rises from anchor `b`, peaks at anchor
`b + 1` and ends at anchor `b + 2`. -/
def melAnchor (toMel : F → F) (k : ℕ) : F :=
  toMel 20 + k * ((toMel 8000 - toMel 20) / 81)

theorem fftBinHz_eq (i : ℕ) : (fftBinHz i : F) = i * (16000 / 512) := by
  simp [fftBinHz, lit_eq_cast, sampleRateHz, fftSize, mul_div_assoc]

/-- The mel scale need only increase where there are frequencies. -/
theorem binMel_strictMono (hmel : StrictMonoOn toMel (Set.Ici 0)) :
    StrictMono (binMel toMel) := by
  have hstep : (0 : F) < 16000 / 512 := by norm_num
  intro i j hij
  apply hmel
  · rw [fftBinHz_eq]
    exact mul_nonneg i.cast_nonneg hstep.le
  · rw [fftBinHz_eq]
    exact mul_nonneg j.cast_nonneg hstep.le
  · rw [fftBinHz_eq, fftBinHz_eq]
    exact mul_lt_mul_of_pos_right (Nat.cast_lt.mpr hij) hstep

theorem melAnchor_strictMono (hmel : StrictMonoOn toMel (Set.Ici 0)) :
    StrictMono (melAnchor toMel) := by
  have hends : toMel 20 < toMel 8000 := by
    apply hmel <;> norm_num
  have hdelta : 0 < (toMel 8000 - toMel 20) / 81 := div_pos (sub_pos.mpr hends) (by norm_num)
  intro j k hjk
  exact add_lt_add_right (mul_lt_mul_of_pos_right (Nat.cast_lt.mpr hjk) hdelta) _

/-- The last anchor is the mel value of the Nyquist bin, which no filter reads. -/
theorem melAnchor_last (toMel : F → F) : melAnchor toMel 81 = binMel toMel (fftSize / 2) := by
  have hnyquist : (fftBinHz (fftSize / 2) : F) = 8000 := by
    rw [fftBinHz_eq]
    norm_num [fftSize]
  rw [binMel, hnyquist, melAnchor, Nat.cast_ofNat, mul_div_cancel₀ _ (by norm_num)]
  exact add_sub_cancel _ _

theorem inside_iff {mel : ℕ → F} {l r : F} {i : ℕ} :
    inside mel l r i = true ↔ l < mel i ∧ mel i < r := by
  rw [inside, Bool.and_eq_true, decide_eq_true_eq, decide_eq_true_eq]

theorem edgeWeight_eq {mel : ℕ → F} {l c r : F} {i : ℕ} (hlc : l < c) (hcr : c < r)
    (hinside : inside mel l r i = true) : edgeWeight mel l c r i = triangle l c r (mel i) := by
  obtain ⟨hl, hr⟩ := inside_iff.mp hinside
  by_cases hc : mel i ≤ c
  · rw [edgeWeight, if_pos hc, triangle_rising hlc hcr hl.le hc]
  · rw [edgeWeight, if_neg hc, triangle_falling hlc hcr (le_of_not_ge hc) hr.le]

/-- The mel values increase, so the bins from the first to the last that the search selects
are those inside the triangle. -/
theorem Stores.samples {mel : ℕ → F} {l c r : F} {f : MelFilter F} (h : Stores mel l c r f)
    (hmel : Monotone mel) (hlc : l < c) (hcr : c < r) : MelFilter.Samples f mel l c r := by
  have hfinds := BinSearch.run_finds (inside mel l r) (fftSize / 2)
  cases h with
  | found hfound hstart hweights =>
    have hgap (i j k : ℕ) (hij : i ≤ j) (hjk : j ≤ k) (hi : inside mel l r i = true)
        (hk : inside mel l r k = true) : inside mel l r j = true := by
      rw [inside_iff] at hi hk ⊢
      exact ⟨hi.1.trans_le (hmel hij), (hmel hjk).trans_lt hk.2⟩
    have hbins := hfinds.interval hgap hfound
    have hrange := BinSearch.run_range _ _ hfound
    refine ⟨fun i => ?_, fun hempty => ?_, fun j w hw => ?_⟩
    · rw [hstart, hweights, List.length_map, List.length_range']
      refine Iff.trans ?_ ((hbins i).trans (and_congr_right fun _ => inside_iff))
      omega
    · rw [hweights] at hempty
      simp at hempty
    · obtain ⟨hj, -⟩ := List.getElem?_eq_some_iff.mp hw
      rw [hweights, List.length_map, List.length_range'] at hj
      rw [hweights, List.getElem?_map, List.getElem?_range' hj, Option.map_some, Nat.one_mul,
        Option.some.injEq] at hw
      have hinside := ((hbins (_ + j)).mp ⟨Nat.le_add_right _ j, by omega⟩).2
      rw [← hw, edgeWeight_eq hlc hcr hinside, hstart]
  | empty hmiss hstart hweights =>
    refine ⟨fun i => ?_, fun _ => hstart, fun j w hw => ?_⟩
    · rw [hweights, hstart]
      constructor
      · intro h
        exact absurd h.2 (Nat.not_lt.mpr h.1)
      · intro ⟨hi, hinside⟩
        have hfound := (hfinds.between i hi (inside_iff.mpr hinside)).1
        rw [hmiss] at hfound
        cases hfound
    · rw [hweights] at hw
      cases hw

theorem buildMelFilter_samples (hmel : StrictMonoOn toMel (Set.Ici 0)) (b : ℕ) :
    MelFilter.Samples (buildMelFilter toMel b) (binMel toMel)
      (melAnchor toMel b) (melAnchor toMel (b + 1)) (melAnchor toMel (b + 2)) := by
  have hdelta : ((toMel melHighFreqHz - toMel melLowFreqHz) /
      (FloatOps.lit numMelBins + FloatOps.lit 1) : F) = (toMel 8000 - toMel 20) / 81 := by
    norm_num [lit_eq_cast, melHighFreqHz, melLowFreqHz, numMelBins]
  have hlow : toMel melLowFreqHz = toMel 20 := by
    norm_num [lit_eq_cast, melLowFreqHz]
  have hstores : Stores (binMel toMel) (melAnchor toMel b) (melAnchor toMel (b + 1))
      (melAnchor toMel (b + 2)) (buildMelFilter toMel b) := by
    apply buildMelFilter_stores
    · rw [hdelta, hlow, lit_eq_cast, melAnchor, Rat.cast_natCast]
    · rw [hdelta, hlow, lit_eq_cast, lit_eq_cast, melAnchor]
      norm_num
    · rw [hdelta, hlow, lit_eq_cast, lit_eq_cast, melAnchor]
      norm_num
  exact hstores.samples (binMel_strictMono hmel).monotone
    (melAnchor_strictMono hmel b.lt_succ_self) (melAnchor_strictMono hmel (b + 1).lt_succ_self)

section Weights

variable (hmel : StrictMonoOn toMel (Set.Ici 0))

include hmel

theorem weightAt_eq_triangle (b : ℕ) {i : ℕ} (hi : i < fftSize / 2) :
    (buildMelFilter toMel b).weightAt i = triangle (melAnchor toMel b) (melAnchor toMel (b + 1))
      (melAnchor toMel (b + 2)) (binMel toMel i) :=
  (buildMelFilter_samples hmel b).weightAt_eq (melAnchor_strictMono hmel b.lt_succ_self)
    (melAnchor_strictMono hmel (b + 1).lt_succ_self) hi

/-- Between the first and the last centre the filters share a bin out. -/
theorem sum_weightAt_eq_one {i : ℕ} (hfirst : melAnchor toMel 1 ≤ binMel toMel i)
    (hlast : binMel toMel i ≤ melAnchor toMel 80) :
    ∑ b : Fin numMelBins, (buildMelFilter toMel b).weightAt i = 1 := by
  have hnyquist : binMel toMel i < binMel toMel (fftSize / 2) := calc
    binMel toMel i ≤ melAnchor toMel 80 := hlast
    _ < melAnchor toMel 81 := melAnchor_strictMono hmel (Nat.lt_succ_self 80)
    _ = binMel toMel (fftSize / 2) := melAnchor_last toMel
  have hi : i < fftSize / 2 := (binMel_strictMono hmel).lt_iff_lt.mp hnyquist
  simp only [weightAt_eq_triangle hmel _ hi]
  exact sum_triangle (melAnchor_strictMono hmel) numMelBins hfirst hlast

end Weights

/-- The filters that `extract` reads. Each stores a weight for the FFT bins strictly between
its outer anchors, and for no other; the bins exist; a weight is the value of the triangle
and lies in `(0, 1]`; and wherever the mel value of a bin is between the first and the last
centre, its weights sum to one. -/
theorem mel_partition (toMel : F → F) (hmel : StrictMonoOn toMel (Set.Ici 0)) :
    let filter (b : Fin numMelBins) := buildMelFilter toMel b
    let mel (i : ℕ) : F := toMel (i * (16000 / 512))
    let left (b : Fin numMelBins) := melAnchor toMel b
    let center (b : Fin numMelBins) := melAnchor toMel (b + 1)
    let right (b : Fin numMelBins) := melAnchor toMel (b + 2)
    (∀ b,
      (∀ i, (filter b).startBin ≤ i ∧ i < (filter b).startBin + (filter b).weights.length ↔
        i < 256 ∧ left b < mel i ∧ mel i < right b) ∧
      ((filter b).weights = [] → (filter b).startBin = 0) ∧
      (filter b).startBin + (filter b).weights.length ≤ 257 ∧
      ∀ j w, (filter b).weights[j]? = some w →
        w = triangle (left b) (center b) (right b) (mel ((filter b).startBin + j)) ∧
          0 < w ∧ w ≤ 1) ∧
    ∀ i, melAnchor toMel 1 ≤ mel i → mel i ≤ melAnchor toMel 80 →
      ∑ b, (filter b).weightAt i = 1 := by
  intro filter mel left center right
  have hbins : binMel toMel = mel := funext fun i => congrArg toMel (fftBinHz_eq i)
  have hsamples (b : Fin numMelBins) :
      MelFilter.Samples (filter b) mel (left b) (center b) (right b) :=
    hbins ▸ buildMelFilter_samples hmel b
  refine ⟨fun b => ⟨(hsamples b).bins, (hsamples b).empty, (filter b).inRange, ?weights⟩,
    ?sum⟩
  case weights =>
    have hlc : left b < center b := melAnchor_strictMono hmel b.val.lt_succ_self
    have hcr : center b < right b := melAnchor_strictMono hmel (b.val + 1).lt_succ_self
    intro j w hw
    exact ⟨(hsamples b).weight j w hw, (hsamples b).weight_mem hlc hcr hw⟩
  case sum =>
    intro i hfirst hlast
    rw [← hbins] at hfirst hlast
    exact sum_weightAt_eq_one hmel hfirst hlast

end Filters

/-- The mel scale of the crate over the real numbers. -/
theorem hzToMel_eq (z : ℝ) : hzToMel z = 1127 * Real.log (1 + z / 700) := by
  simp only [hzToMel, lit_eq_cast]
  norm_num
  rfl

theorem hzToMel_strictMonoOn : StrictMonoOn (hzToMel : ℝ → ℝ) (Set.Ici 0) := by
  intro x hx y _ hxy
  have hpos : 0 < 1 + x / 700 := by
    have := Set.mem_Ici.mp hx
    positivity
  have harg : 1 + x / 700 < 1 + y / 700 :=
    add_lt_add_right (div_lt_div_of_pos_right hxy (by norm_num)) 1
  have hlog : Real.log (1 + x / 700) < Real.log (1 + y / 700) := Real.log_lt_log hpos harg
  rw [hzToMel_eq, hzToMel_eq]
  exact mul_lt_mul_of_pos_left hlog (by norm_num)

/-- The mel scale of the crate spreads the filters over real frequencies. -/
theorem mel_partition_hzToMel :
    (∀ b, (buildMelFilters b : MelFilter ℝ).startBin +
      (buildMelFilters b : MelFilter ℝ).weights.length ≤ 257) ∧
    ∀ i : ℕ, melAnchor hzToMel 1 ≤ hzToMel ((i : ℝ) * (16000 / 512)) →
      hzToMel ((i : ℝ) * (16000 / 512)) ≤ melAnchor hzToMel 80 →
      ∑ b, (buildMelFilters b).weightAt i = (1 : ℝ) := by
  have hpartition := mel_partition hzToMel hzToMel_strictMonoOn
  exact ⟨fun b => (hpartition.1 b).2.2.1, hpartition.2⟩

end FireredVad
