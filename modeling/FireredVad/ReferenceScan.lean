import FireredVad.DetectorRuns

/-!
# The postprocessor as a scan for runs of speech and silence

A segment opens at the first frame that completes `P` speech frames in a row and closes
at the first later one that completes `S` silent frames in a row. In between, speech
frames cut it whenever the count from the last cut reaches the limit `m`. Positions are
absolute frame indices, and no counter is carried along.
-/

namespace FireredVad.ReferenceScan
open Hysteresis

/-- The pieces cut off an open segment, its start, and where the count to `m` starts. -/
structure Cuts where
  pieces : List (ℕ × ℕ)
  start : ℕ
  base : ℕ
  deriving DecidableEq, Repr

/-- A speech frame cuts the open segment when the count has reached `m`. -/
def Cuts.visit (b : List Bool) (m : Option ℕ) (s : Cuts) (i : ℕ) : Cuts :=
  if b[i]? = some true ∧ ∃ limit ∈ m, limit ≤ i - s.base + 1 then
    ⟨s.pieces ++ [(s.start, i)], i + 1, i + 1⟩
  else s

/-- The frames strictly between the opening `o` and frame `c`, in order. -/
def between (o c : ℕ) : List ℕ := List.range' (o + 1) (c - (o + 1))

/-- The cuts at the frames between `o` and `c`. -/
def cuts (b : List Bool) (P : ℕ) (m : Option ℕ) (start o c : ℕ) : Cuts :=
  (between o c).foldl (Cuts.visit b m) ⟨[], start, o + 1 - P⟩

/-- First frame after the previous closing. -/
def afterClosing : Option ℕ → ℕ
  | none => 0
  | some c => c + 1

/-- Padding reaches back to the previous closing, and not before the stream. -/
def segmentStart (P pad : ℕ) (prev : Option ℕ) (o : ℕ) : ℕ :=
  max (o + 1 - P - pad) (afterClosing prev)

/-- The scan from position `p`, with the previous closing frame, and what it emits. -/
inductive Scan (b : List Bool) (P S pad : ℕ) (m : Option ℕ) :
    ℕ → Option ℕ → List (ℕ × ℕ) → Prop
  | silent {p : ℕ} {prev : Option ℕ} (hopen : ∀ o, ¬ Opens b P p o) :
      Scan b P S pad m p prev []
  | unclosed {p o : ℕ} {prev : Option ℕ} (hopen : IsLeast {o | Opens b P p o} o)
      (hclose : ∀ c, ¬ Closes b S o c) :
      Scan b P S pad m p prev (cuts b P m (segmentStart P pad prev o) o b.length).pieces
  | closed {p o c : ℕ} {prev : Option ℕ} {rest : List (ℕ × ℕ)}
      (hopen : IsLeast {o | Opens b P p o} o) (hclose : IsLeast {c | Closes b S o c} c)
      (hrest : Scan b P S pad m (c + 1) (some c) rest) :
      Scan b P S pad m p prev
        ((cuts b P m (segmentStart P pad prev o) o c).pieces ++
          ((cuts b P m (segmentStart P pad prev o) o c).start, c) :: rest)

/-- The scan leaves no choice. -/
theorem Scan.unique {b : List Bool} {P S pad p : ℕ} {m prev : Option ℕ}
    {xs ys : List (ℕ × ℕ)} (hx : Scan b P S pad m p prev xs) (hy : Scan b P S pad m p prev ys) :
    xs = ys := by
  induction hx generalizing ys with
  | silent hopen =>
    cases hy with
    | silent _ => rfl
    | unclosed ho _ => exact absurd ho.1 (hopen _)
    | closed ho _ _ => exact absurd ho.1 (hopen _)
  | unclosed hopen hclose =>
    cases hy with
    | silent ho => exact absurd hopen.1 (ho _)
    | unclosed ho _ => rw [hopen.unique ho]
    | closed ho hc _ =>
      obtain rfl := hopen.unique ho
      exact absurd hc.1 (hclose _)
  | closed hopen hclose _ ih =>
    cases hy with
    | silent ho => exact absurd hopen.1 (ho _)
    | unclosed ho hc =>
      obtain rfl := hopen.unique ho
      exact absurd hclose.1 (hc _)
    | closed ho hc hrest =>
      obtain rfl := hopen.unique ho
      obtain rfl := hclose.unique hc
      rw [ih hrest]

/-! ## The segmenter performs the scan -/

theorem between_self (o : ℕ) : between o (o + 1) = [] := by simp [between]

theorem between_succ {o n : ℕ} (h : o < n) : between o (n + 1) = between o n ++ [n] := by
  have hlen : n + 1 - (o + 1) = n - (o + 1) + 1 := by omega
  have hlast : o + 1 + (n - (o + 1)) = n := by omega
  simp only [between, hlen, List.range'_concat, Nat.one_mul, hlast]

theorem cuts_succ (b : List Bool) (P : ℕ) (m : Option ℕ) (start : ℕ) {o n : ℕ} (h : o < n) :
    cuts b P m start o (n + 1) = (cuts b P m start o n).visit b m n := by
  simp [cuts, between_succ h]

theorem cuts_start (b : List Bool) (P : ℕ) (m : Option ℕ) (start o : ℕ) :
    cuts b P m start o (o + 1) = ⟨[], start, o + 1 - P⟩ := by
  simp [cuts, between_self]

variable {lim : FrameLimits} {b : List Bool}

/-- The scan with the effective thresholds of the postprocessor. -/
abbrev ScanOf (lim : FrameLimits) (b : List Bool) : ℕ → Option ℕ → List (ℕ × ℕ) → Prop :=
  Scan b lim.rise lim.fall lim.padStartFrames lim.maxSpeechFrames

abbrev cutsOf (lim : FrameLimits) (b : List Bool) (prev : Option ℕ) (o n : ℕ) : Cuts :=
  cuts b lim.rise lim.maxSpeechFrames (segmentStart lim.rise lim.padStartFrames prev o) o n

/-- What the phase after `n` frames says about them, when the scan resumed at position `p`
after the closing `prev` and has emitted `pieces` since. -/
inductive PhaseSpec (lim : FrameLimits) (b : List Bool) (n p : ℕ) (prev : Option ℕ)
    (floor : ℕ) : Phase → List (ℕ × ℕ) → Prop
  | idle {run : ℕ} (h : IdleAt b lim.rise n p run) (hfloor : floor = afterClosing prev) :
      PhaseSpec lim b n p prev floor (.idle run) []
  | active {o quiet start base : ℕ} {pieces : List (ℕ × ℕ)}
      (hopen : IsLeast {o | Opens b lim.rise p o} o) (h : ActiveAt b lim.fall n o quiet)
      (hcuts : cutsOf lim b prev o n = ⟨pieces, start, base⟩) (hbase : base ≤ n) :
      PhaseSpec lim b n p prev floor (.active quiet start base) pieces

/-- The frames emitted after `n` frames: those of closed segments, after which the scan
resumes, and the pieces of the current one. -/
def Invariant (lim : FrameLimits) (b : List Bool) (a : Segmenter)
    (out : List (ℕ × ℕ)) : Prop :=
  ∃ p prev done pieces,
    (∀ rest, ScanOf lim b p prev rest → ScanOf lim b 0 none (done ++ rest)) ∧
    PhaseSpec lim b a.now p prev a.floor a.phase pieces ∧ out = done ++ pieces

theorem two_le_rise (lim : FrameLimits) : 2 ≤ lim.rise := by simp [FrameLimits.rise]

theorem two_le_fall (lim : FrameLimits) : 2 ≤ lim.fall := by simp [FrameLimits.fall]

theorem invariant_initial (lim : FrameLimits) (b : List Bool) : Invariant lim b {} [] := by
  have := two_le_rise lim
  exact ⟨0, none, [], [], fun _ h => h, .idle (idleAt_start b 0 (by omega)) rfl, rfl⟩

private theorem phaseSpec_idle {n p run floor : ℕ} {prev : Option ℕ} {x : Bool}
    (h : IdleAt b lim.rise n p run) (hfloor : floor = afterClosing prev) (hb : b[n]? = some x) :
    let r := Segmenter.step lim ⟨n, floor, .idle run⟩ x
    PhaseSpec lim b (n + 1) p prev r.1.floor r.1.phase r.2.toList := by
  cases x with
  | false => exact .idle (h.silence hb) hfloor
  | true =>
    by_cases hrun : lim.rise ≤ run + 1
    · have hfall := two_le_fall lim
      have hshort := h.short
      have hlen : n + 1 - lim.rise = n - run := by omega
      simp only [Segmenter.step, if_pos hrun]
      refine .active (h.opens hb hrun) (activeAt_start hb (by omega)) ?_ (by omega)
      rw [cutsOf, cuts_start, segmentStart, hlen, hfloor]
      rfl
    · simp only [Segmenter.step, if_neg hrun]
      exact .idle (h.speech hb (by omega)) hfloor

/-- A frame that does not close the segment extends its cuts by one visit. -/
private theorem phaseSpec_active {n p o quiet start base floor : ℕ} {prev : Option ℕ}
    {pieces : List (ℕ × ℕ)} {x : Bool}
    (hopen : IsLeast {o | Opens b lim.rise p o} o) (h : ActiveAt b lim.fall n o quiet)
    (hcuts : cutsOf lim b prev o n = ⟨pieces, start, base⟩) (hbase : base ≤ n)
    (hb : b[n]? = some x) (hstay : x = false → quiet + 1 < lim.fall) :
    let r := Segmenter.step lim ⟨n, floor, .active quiet start base⟩ x
    PhaseSpec lim b (n + 1) p prev r.1.floor r.1.phase (pieces ++ r.2.toList) := by
  have hroom := h.room
  have hvisit : cutsOf lim b prev o (n + 1) =
      Cuts.visit b lim.maxSpeechFrames ⟨pieces, start, base⟩ n := by
    rw [cutsOf, cuts_succ _ _ _ _ (by omega), ← hcuts]
  cases x with
  | true =>
    have hcount : n + 1 - base = n - base + 1 := by omega
    by_cases hdue : lim.SplitDue (n - base + 1)
    · rw [Cuts.visit, if_pos ⟨hb, hdue⟩] at hvisit
      simp only [Segmenter.step, hcount, if_pos hdue]
      exact .active hopen (h.speech hb) hvisit (Nat.le_refl _)
    · rw [Cuts.visit, if_neg fun hc => hdue hc.2] at hvisit
      simp only [Segmenter.step, hcount, if_neg hdue, Option.toList_none, List.append_nil]
      exact .active hopen (h.speech hb) hvisit (by omega)
  | false =>
    rw [Cuts.visit, if_neg (by simp [hb])] at hvisit
    have hquiet := hstay rfl
    simp only [Segmenter.step, if_neg (by omega : ¬ lim.fall ≤ quiet + 1), Option.toList_none,
      List.append_nil]
    exact .active hopen (h.silence hb hquiet) hvisit (by omega)

theorem invariant_step {a : Segmenter} {out : List (ℕ × ℕ)} {x : Bool}
    (h : Invariant lim b a out) (hb : b[a.now]? = some x) :
    Invariant lim b (a.step lim x).1 (out ++ (a.step lim x).2.toList) := by
  obtain ⟨n, floor, phase⟩ := a
  obtain ⟨p, prev, done, pieces, hdone, hphase, rfl⟩ := h
  have hnow := Segmenter.step_now lim ⟨n, floor, phase⟩ x
  dsimp only at hb hphase hnow
  cases hphase with
  | @idle run hidle hfloor =>
    refine ⟨p, prev, done, _, hdone, ?_, congrArg (· ++ _) (List.append_nil done)⟩
    rw [hnow]
    exact phaseSpec_idle hidle hfloor hb
  | @active o quiet start base _ hopen hactive hcuts hbase =>
    by_cases hstay : x = false → quiet + 1 < lim.fall
    · refine ⟨p, prev, done, _, hdone, ?_, List.append_assoc _ _ _⟩
      rw [hnow]
      exact phaseSpec_active hopen hactive hcuts hbase hb hstay
    · -- the closing frame: the scan resumes behind it
      rw [not_forall] at hstay
      obtain ⟨rfl, hquiet⟩ := hstay
      have hfall : lim.fall ≤ quiet + 1 := by omega
      have hrise := two_le_rise lim
      refine ⟨n + 1, some n, done ++ pieces ++ [(start, n)], [], ?_, ?_, ?_⟩
      · intro rest hrest
        have hscan := hdone _ (.closed hopen (hactive.closes hb hfall) hrest)
        rw [cutsOf] at hcuts
        rw [hcuts] at hscan
        simpa using hscan
      · simp only [Segmenter.step, if_pos hfall]
        exact .idle (idleAt_start b (n + 1) (by omega)) rfl
      · simp [Segmenter.step, hfall]

/-- What is known once all frames are read completes the scan. -/
theorem Invariant.scan {a : Segmenter} {out : List (ℕ × ℕ)} (h : Invariant lim b a out)
    (hend : a.now = b.length) : ScanOf lim b 0 none out := by
  obtain ⟨n, floor, phase⟩ := a
  obtain ⟨p, prev, done, pieces, hdone, hphase, rfl⟩ := h
  dsimp only at hphase hend
  subst hend
  refine hdone pieces ?_
  -- a window lies within the frames
  have hlt {v : Bool} {i : ℕ} (hi : b[i]? = some v) : i < b.length :=
    (List.getElem?_eq_some_iff.mp hi).1
  cases hphase with
  | idle hidle _ =>
    refine .silent fun o ho => hidle.unopened o (hlt (ho.2 o ?_ (Nat.le_refl o))) ho
    have := two_le_rise lim
    omega
  | active hopen hactive hcuts _ =>
    have hscan : ScanOf lim b p prev _ := .unclosed hopen fun c hc =>
      hactive.unclosed c (hlt (hc.2 c (by have := two_le_fall lim; omega) (Nat.le_refl c))) hc
    rw [cutsOf] at hcuts
    rwa [hcuts] at hscan

/-- The segmenter emits what the scan emits. -/
theorem scan_run (lim : FrameLimits) (b : List Bool) :
    ScanOf lim b 0 none (emitted (Transducer.run (Segmenter.step lim) {} b).2) := by
  let P (pre : List Bool) (a : Segmenter) (out : List (Option (ℕ × ℕ))) : Prop :=
    a.now = pre.length ∧ Invariant lim b a (emitted out)
  have hrun : P b (Transducer.run (Segmenter.step lim) {} b).1
      (Transducer.run (Segmenter.step lim) {} b).2 := by
    refine Transducer.run_induction b ⟨rfl, invariant_initial lim b⟩ ?_
    rintro pre x ⟨post, rfl⟩ ⟨hnow, hinv⟩
    refine ⟨by simp [hnow], ?_⟩
    rw [emitted_append, emitted_cons, emitted_nil, List.append_nil]
    exact invariant_step hinv (by simp [hnow])
  exact hrun.2.scan hrun.1

end FireredVad.ReferenceScan

namespace FireredVad.Postprocessor
open ReferenceScan

variable {F32 F64 : Type} [FloatOps F32] [FloatOps F64] [FloatCast F32 F64]

/-- A fresh postprocessor segments any sequence of probabilities as the scan over their
speech flags does. The scan determines the list `out` of frame pairs. -/
theorem segments_eq_scan (o : VadOptions F32) (probs : List F32) :
    ∃ out : List (ℕ × ℕ),
      (new o : Postprocessor F32 F64).segments probs =
        out.map (fun f => ⟨160 * f.1, 160 * f.2⟩) ∧
      ∀ xs, Scan ((new o : Postprocessor F32 F64).flags probs)
        (max 2 o.minSpeechFrames) (max 2 o.minSilenceFrames) o.padStartFrames
        o.maxSpeechFrames 0 none xs ↔ xs = out := by
  have hscan := scan_run o.limits ((new o : Postprocessor F32 F64).flags probs)
  refine ⟨_, ?_, fun xs => ⟨fun hx => hx.unique hscan, fun hx => hx ▸ hscan⟩⟩
  rw [segments_eq (coherent_new o)]
  refine List.map_congr_left fun f _ => ?_
  simp [toSamples, frameShiftSamples, Nat.mul_comm]

end FireredVad.Postprocessor
