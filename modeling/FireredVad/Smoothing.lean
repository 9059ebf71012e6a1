import FireredVad.Alternation
import Mathlib.Data.List.DropRight
import Mathlib.Tactic.Linarith
import Mathlib.Tactic.Positivity

/-!
# Smoothing is a trailing mean

The queue and its running sum are kept in step by every call. In exact arithmetic they
are the last raw probabilities since the window last began, and their sum: a window
begins with the detector, with a reset, and with options that change its size.
-/

namespace FireredVad

/-- The arithmetic mean of a list. -/
def mean (xs : List ℚ) : ℚ := xs.sum / xs.length

section Lists

theorem rtake_cons_of_le {α : Type} {n : ℕ} (x : α) {xs : List α} (h : n ≤ xs.length) :
    (x :: xs).rtake n = xs.rtake n := by
  simp only [List.rtake, List.length_cons]
  rw [Nat.succ_sub h, List.drop_succ_cons]

theorem rtake_of_length_le {α : Type} {n : ℕ} {xs : List α} (h : xs.length ≤ n) :
    xs.rtake n = xs := by
  simp [List.rtake, Nat.sub_eq_zero_of_le h]

theorem length_rtake {α : Type} (n : ℕ) (xs : List α) :
    (xs.rtake n).length = min n xs.length := by
  simp only [List.rtake, List.length_drop]
  omega

/-- An entry pushed behind the last `n` entries leaves only the last `n` of all. -/
theorem rtake_concat_rtake {α : Type} (n : ℕ) (xs : List α) (x : α) :
    (xs.rtake n ++ [x]).rtake n = (xs ++ [x]).rtake n := by
  cases n with
  | zero => simp
  | succ n =>
    rw [List.rtake_concat_succ, List.rtake_concat_succ]
    congr 1
    simp only [List.rtake, List.length_drop, List.drop_drop]
    congr 1
    omega

theorem rtake_min_length {α : Type} (n : ℕ) (xs : List α) :
    xs.rtake (min n xs.length) = xs.rtake n := by
  simp only [List.rtake]
  congr 1
  omega

theorem sum_mem_Icc {xs : List ℚ} (h : ∀ x ∈ xs, x ∈ Set.Icc (0 : ℚ) 1) :
    xs.sum ∈ Set.Icc (0 : ℚ) xs.length := by
  induction xs with
  | nil => simp
  | cons x xs ih =>
    obtain ⟨hx, hx'⟩ := h x List.mem_cons_self
    obtain ⟨hxs, hxs'⟩ := ih fun y hy => h y (List.mem_cons_of_mem x hy)
    rw [List.sum_cons, List.length_cons]
    push_cast
    exact ⟨by linarith, by linarith⟩

theorem mean_mem_Icc {xs : List ℚ} (h : ∀ x ∈ xs, x ∈ Set.Icc (0 : ℚ) 1) :
    mean xs ∈ Set.Icc (0 : ℚ) 1 := by
  obtain ⟨hsum, hsum'⟩ := sum_mem_Icc h
  constructor
  · exact div_nonneg hsum (by positivity)
  · exact div_le_one_of_le₀ hsum' (by positivity)

end Lists

namespace Postprocessor

/-- The calls of a stream, and the reset between two streams. -/
inductive Request (F32 : Type) where
  | call (c : Call F32)
  | reset

variable {F32 F64 : Type} [FloatOps F32] [FloatOps F64] [FloatCast F32 F64]

def request (p : Postprocessor F32 F64) : Request F32 → Postprocessor F32 F64
  | .call c => (p.call c).1
  | .reset => p.reset

/-- The window size in force, and the raw probabilities pushed since the window began. -/
structure Recent (F32 : Type) where
  size : ℕ
  raws : List F32

def Recent.after (r : Recent F32) : Request F32 → Recent F32
  | .call (.pushProbability rawProb) => ⟨r.size, r.raws ++ [rawProb]⟩
  | .call (.setOptions o) =>
    if o.smoothWindowSize = r.size then r else ⟨o.smoothWindowSize, []⟩
  | .call .finishActive => r
  | .reset => ⟨r.size, []⟩

/-- In exact arithmetic: what the window and its sum are. -/
structure Averages (r : Recent ℚ) (p : Postprocessor ℚ ℚ) : Prop where
  size : p.options.smoothWindowSize = r.size
  /-- At sizes 0 and 1 the window is bypassed, and stays empty. -/
  window : p.smoothWindow = if 2 ≤ r.size then r.raws.rtake r.size else []
  sum : p.smoothWindowSum = p.smoothWindow.sum

theorem averages_new (o : VadOptions ℚ) : Averages ⟨o.smoothWindowSize, []⟩ (new o) :=
  ⟨rfl, by simp [new], rfl⟩

/-- Dropping the oldest entries keeps the last ones, and their sum. -/
theorem dropOldest_eq (size : ℕ) (xs : List ℚ) :
    dropOldest size xs xs.sum = (xs.rtake size, (xs.rtake size).sum) := by
  induction xs with
  | nil => simp [dropOldest]
  | cons x xs ih =>
    rw [dropOldest]
    split
    · rename_i hlong
      have hsum : (x :: xs).sum - FloatCast.widen x = xs.sum := by
        rw [List.sum_cons]
        exact add_sub_cancel_left x xs.sum
      rw [hsum, ih, rtake_cons_of_le x (Nat.le_of_lt_succ hlong)]
    · rename_i hshort
      rw [rtake_of_length_le (by simpa using hshort)]

variable {r : Recent ℚ} {p : Postprocessor ℚ ℚ}

/-- The frame's smoothed probability, and what is left in the window for the next one. -/
theorem Averages.smooth (h : Averages r p) (rawProb : ℚ) :
    (p.smooth rawProb).2 = mean ((r.raws ++ [rawProb]).rtake (max 1 r.size)) ∧
      Averages ⟨r.size, r.raws ++ [rawProb]⟩ (p.smooth rawProb).1 := by
  have hsize : p.options.smoothWindowSizeFrames = r.size := h.size
  by_cases hone : r.size ≤ 1
  · -- bypassed: the mean of one value
    have hbypass : p.smooth rawProb = (p, rawProb) := by
      rw [Postprocessor.smooth, hsize]
      exact if_pos (by omega)
    have hmax : max 1 r.size = 0 + 1 := by omega
    rw [hbypass]
    refine ⟨?_, h.size, ?_, h.sum⟩
    · rw [hmax, List.rtake_concat_succ]
      simp [mean]
    · have hshort : ¬ 2 ≤ r.size := by omega
      rw [h.window, if_neg hshort]
      exact (if_neg hshort).symm
  · have hmax : max 1 r.size = r.size := by omega
    have hmax' : max r.size 1 = r.size := by omega
    have hlong : 2 ≤ r.size := by omega
    have hwindow : p.smoothWindow = r.raws.rtake r.size := by rw [h.window, if_pos hlong]
    have hsum : p.smoothWindowSum + FloatCast.widen rawProb = (p.smoothWindow ++ [rawProb]).sum := by
      rw [h.sum, List.sum_append, List.sum_singleton]
      rfl
    have hpush : p.smooth rawProb =
        let xs := (r.raws ++ [rawProb]).rtake r.size
        ({ p with smoothWindow := xs, smoothWindowSum := xs.sum }, mean xs) := by
      rw [Postprocessor.smooth, hsize, hmax', hsum, dropOldest_eq, hwindow, rtake_concat_rtake]
      exact if_neg hone
    rw [hpush, hmax]
    exact ⟨rfl, h.size, (if_pos hlong).symm, rfl⟩

theorem Averages.request (h : Averages r p) (q : Request ℚ) :
    Averages (r.after q) (p.request q) := by
  cases q with
  | reset =>
    exact ⟨h.size, by simp [Recent.after, Postprocessor.request, reset], rfl⟩
  | call c =>
    cases c with
    | pushProbability rawProb =>
      obtain ⟨-, hsize, hwindow, hsum⟩ := h.smooth rawProb
      exact ⟨hsize, hwindow, hsum⟩
    | finishActive => exact ⟨h.size, h.window, h.sum⟩
    | setOptions o =>
      have hold : p.options.smoothWindowSizeFrames = r.size := h.size
      by_cases hnew : o.smoothWindowSize = r.size
      · have hset : p.setOptions o = { p with options := o } := by
          rw [setOptions, hold]
          exact if_neg (not_not.mpr hnew)
        simp only [Recent.after, if_pos hnew, Postprocessor.request, call, hset]
        exact ⟨hnew, h.window, h.sum⟩
      · have hset : p.setOptions o =
            { p with options := o, smoothWindow := [], smoothWindowSum := 0 } := by
          rw [setOptions, hold]
          exact if_pos hnew
        simp only [Recent.after, if_neg hnew, Postprocessor.request, call, hset]
        exact ⟨rfl, by simp, rfl⟩

/-- The state after a run of requests. -/
def afterRequests (p : Postprocessor F32 F64) (requests : List (Request F32)) :
    Postprocessor F32 F64 := requests.foldl request p

/-- What a window of the given size has seen at the end of a run of requests. -/
def recent (size : ℕ) (requests : List (Request F32)) : Recent F32 :=
  requests.foldl Recent.after ⟨size, []⟩

theorem Averages.requests (h : Averages r p) (requests : List (Request ℚ)) :
    Averages (requests.foldl Recent.after r) (p.afterRequests requests) := by
  induction requests generalizing r p with
  | nil => exact h
  | cons q requests ih => exact ih (h.request q)

theorem Averages.length_le (h : Averages r p) :
    p.smoothWindow.length ≤ max 1 p.options.smoothWindowSize := by
  rw [h.window, h.size]
  split
  · rw [length_rtake]
    omega
  · exact Nat.zero_le _

/-- After every run of pushes, option changes, ends of stream and resets, the running sum
is the sum of the window, which has at most `max 1 w` entries for the window size `w` in
force. The next frame's smoothed probability is the mean of the last `min (max 1 w) k` raw
probabilities, where `k` counts the frames since the window began, this one included; it
lies in `[0, 1]` if they do. -/
theorem smoothedProb_eq_mean (o : VadOptions ℚ) (requests : List (Request ℚ)) (rawProb : ℚ) :
    let p := (new o : Postprocessor ℚ ℚ).afterRequests requests
    let w := p.options.smoothWindowSize
    let raws := (recent o.smoothWindowSize requests).raws ++ [rawProb]
    let smoothed := (p.pushProbability rawProb).2.1.smoothedProb
    p.smoothWindowSum = p.smoothWindow.sum ∧
    p.smoothWindow.length ≤ max 1 w ∧
    smoothed = mean (raws.rtake (min (max 1 w) raws.length)) ∧
    ((∀ x ∈ raws, x ∈ Set.Icc 0 1) → smoothed ∈ Set.Icc 0 1) := by
  intro p w raws smoothed
  have h : Averages (recent o.smoothWindowSize requests) p := (averages_new o).requests requests
  have hmean : smoothed = mean (raws.rtake (min (max 1 w) raws.length)) := by
    rw [rtake_min_length, show w = _ from h.size]
    exact (h.smooth rawProb).1
  refine ⟨h.sum, h.length_le, hmean, fun hraws => ?_⟩
  rw [hmean]
  exact mean_mem_Icc fun x hx => hraws x (List.mem_of_mem_drop hx)

end Postprocessor

end FireredVad
