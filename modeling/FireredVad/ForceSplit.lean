import FireredVad.SegmentOrder

/-!
# Force-splitting only subdivides

Two segmenters read the same flags; one of them splits long segments. Their hysteresis
levels are equal throughout. While a segment is open, the pieces the splitting run has
cut off it form a chain from its start to the start of the piece that is still open.
-/

namespace FireredVad

/-- `pieces` cut `[start, stop]` from end to end, apart from single frames between them. -/
structure Subdivides (start stop : ℕ) (pieces : List (ℕ × ℕ)) : Prop where
  head : pieces.head?.map Prod.fst = some start
  last : pieces.getLast?.map Prod.snd = some stop
  inside : ∀ f ∈ pieces, start ≤ f.1 ∧ f.1 ≤ f.2 ∧ f.2 ≤ stop
  increasing : pieces.Pairwise fun f g => f.2 < g.1

namespace Segmenter

/-- The pieces so far of a segment that opened at `start`, the next of which starts at `now`. -/
structure Chain (start : ℕ) (pieces : List (ℕ × ℕ)) (next : ℕ) : Prop where
  head : (pieces.map Prod.fst ++ [next]).head? = some start
  inside : ∀ f ∈ pieces, start ≤ f.1 ∧ f.1 ≤ f.2 ∧ f.2 < next
  increasing : pieces.Pairwise fun f g => f.2 < g.1
  start_le : start ≤ next

theorem chain_nil (start : ℕ) : Chain start [] start :=
  ⟨rfl, by simp, .nil, Nat.le_refl start⟩

theorem Chain.cut {start next now : ℕ} {pieces : List (ℕ × ℕ)} (h : Chain start pieces next)
    (hnow : next ≤ now) : Chain start (pieces ++ [(next, now)]) (now + 1) := by
  refine ⟨?_, ?_, ?_, by have := h.start_le; omega⟩
  · rw [← h.head]
    cases pieces <;> simp
  · intro f hf
    rcases List.mem_append.mp hf with hf | hf
    · have := h.inside f hf
      omega
    · obtain rfl := List.mem_singleton.mp hf
      exact ⟨h.start_le, hnow, Nat.lt_succ_self now⟩
  · refine List.pairwise_append.mpr ⟨h.increasing, by simp, ?_⟩
    intro f hf g hg
    obtain rfl := List.mem_singleton.mp hg
    exact (h.inside f hf).2.2

theorem Chain.subdivides {start next stop : ℕ} {pieces : List (ℕ × ℕ)}
    (h : Chain start pieces next) (hstop : next ≤ stop) :
    Subdivides start stop (pieces ++ [(next, stop)]) := by
  have hcut := h.cut hstop
  refine ⟨?_, by simp, fun f hf => ?_, hcut.increasing⟩
  · rw [← h.head]
    cases pieces <;> simp
  · have := hcut.inside f hf
    omega

/-- The run without splits has emitted `out`, the one with splits the pieces `groups` of
these segments and the pieces `rest` of the segment still open. -/
inductive Splitting (a : Segmenter) (out : List (ℕ × ℕ)) (a' : Segmenter) :
    List (List (ℕ × ℕ)) → List (ℕ × ℕ) → Prop
  | idle {run : ℕ} {groups : List (List (ℕ × ℕ))}
      (hphase : a.phase = .idle run) (hphase' : a'.phase = .idle run)
      (hfloor : a'.floor = a.floor)
      (hgroups : List.Forall₂ (fun f g => Subdivides f.1 f.2 g) out groups) :
      Splitting a out a' groups []
  /-- Without splits an open segment always has a first frame. -/
  | active {quiet start base start' base' : ℕ} {groups : List (List (ℕ × ℕ))}
      {rest : List (ℕ × ℕ)}
      (hphase : a.phase = .active quiet start base)
      (hphase' : a'.phase = .active quiet start' base')
      (hstart : start < a.now) (hchain : Chain start rest start')
      (hgroups : List.Forall₂ (fun f g => Subdivides f.1 f.2 g) out groups) :
      Splitting a out a' groups rest

/-- The relation between the two runs, whose frames agree in number. -/
structure SplitRelation (a : Segmenter) (out : List (ℕ × ℕ)) (a' : Segmenter)
    (out' : List (ℕ × ℕ)) : Prop where
  now : a'.now = a.now
  bounded : a'.Bounded
  splitting : ∃ groups rest, out' = groups.flatten ++ rest ∧ Splitting a out a' groups rest

theorem splitRelation_initial : SplitRelation {} [] {} [] :=
  ⟨rfl, bounded_initial, [], [], rfl, .idle rfl rfl rfl .nil⟩

/-- Limits with and without a maximum, alike in everything else. -/
structure SplitsOnly (lim lim' : FrameLimits) : Prop where
  never : lim.maxSpeechFrames = none
  rise : lim'.rise = lim.rise
  fall : lim'.fall = lim.fall
  pad : lim'.padStartFrames = lim.padStartFrames

variable {lim lim' : FrameLimits} {a a' : Segmenter} {out : List (ℕ × ℕ)}
  {groups : List (List (ℕ × ℕ))} {rest : List (ℕ × ℕ)}

theorem SplitsOnly.not_splitDue (h : SplitsOnly lim lim') (n : ℕ) : ¬ lim.SplitDue n := by
  simp [FrameLimits.SplitDue, h.never]

/-- One frame: the groups and pieces grow by what the splitting run emits. -/
theorem splitting_step (hlim : SplitsOnly lim lim') (hnow : a'.now = a.now) (hb : a'.Bounded)
    (h : Splitting a out a' groups rest) (x : Bool) :
    ∃ groups' rest',
      groups.flatten ++ rest ++ (a'.step lim' x).2.toList = groups'.flatten ++ rest' ∧
      Splitting (a.step lim x).1 (out ++ (a.step lim x).2.toList) (a'.step lim' x).1
        groups' rest' := by
  obtain ⟨now, floor, phase⟩ := a
  obtain ⟨now', floor', phase'⟩ := a'
  obtain rfl : now' = now := hnow
  cases h with
  | @idle run _ hphase hphase' hfloor hgroups =>
    obtain rfl : phase = .idle run := hphase
    obtain rfl : phase' = .idle run := hphase'
    obtain rfl : floor' = floor := hfloor
    refine ⟨groups, [], ?_, ?_⟩
    · cases x with
      | false => simp [step]
      | true => simp only [step]; split <;> simp
    · cases x with
      | false => simpa [step] using Splitting.idle rfl rfl rfl hgroups
      | true =>
        simp only [step, hlim.rise, hlim.pad]
        split
        · have hfloor : floor' ≤ now' := hb.floor_le
          have hstart : max (now' - run - lim.padStartFrames) floor' < now' + 1 := by omega
          simpa using Splitting.active rfl rfl hstart (chain_nil _) hgroups
        · simpa using Splitting.idle rfl rfl rfl hgroups
  | @active quiet start base start' base' _ _ hphase hphase' hstart hchain hgroups =>
    obtain rfl : phase = .active quiet start base := hphase
    obtain rfl : phase' = .active quiet start' base' := hphase'
    have hstart' : start' ≤ now' := (hb.start _ _ _ rfl).2
    have hstart : start < now' + 1 := Nat.lt_succ_of_lt hstart
    cases x with
    | true =>
      simp only [step, if_neg (hlim.not_splitDue _), Option.toList_none, List.append_nil]
      split
      · exact ⟨groups, rest ++ [(start', now')], by simp,
          .active rfl rfl hstart (hchain.cut hstart') hgroups⟩
      · exact ⟨groups, rest, by simp, .active rfl rfl hstart hchain hgroups⟩
    | false =>
      simp only [step, hlim.fall]
      split
      · -- the last piece ends where the segment ends, and completes its group
        refine ⟨groups ++ [rest ++ [(start', now')]], [], by simp, .idle rfl rfl rfl ?_⟩
        exact List.rel_append hgroups (.cons (hchain.subdivides hstart') .nil)
      · refine ⟨groups, rest, by simp, ?_⟩
        simpa using Splitting.active rfl rfl hstart hchain hgroups

theorem SplitRelation.level {out' : List (ℕ × ℕ)} (h : SplitRelation a out a' out') :
    a'.phase.level = a.phase.level := by
  obtain ⟨groups, rest, -, hsplit⟩ := h.splitting
  cases hsplit with
  | idle hphase hphase' => rw [hphase, hphase']
  | active hphase hphase' => rw [hphase, hphase']; rfl

theorem Splitting.subdivides (h : Splitting a out a' groups rest) :
    List.Forall₂ (fun f g => Subdivides f.1 f.2 g) out groups := by
  cases h with
  | idle _ _ _ hgroups => exact hgroups
  | active _ _ _ _ hgroups => exact hgroups

/-- The pieces outside the groups belong to the segment that is open without splits. -/
theorem Splitting.rest_le (h : Splitting a out a' groups rest) :
    ∀ f ∈ rest, ∃ quiet start base, a.phase = .active quiet start base ∧ start < a.now ∧
      start ≤ f.1 := by
  intro f hf
  cases h with
  | idle => simp at hf
  | active hphase _ hstart hchain _ => exact ⟨_, _, _, hphase, hstart, (hchain.inside f hf).1⟩

theorem splitRelation_run (hlim : SplitsOnly lim lim') (b : List Bool) :
    SplitRelation (Transducer.run (step lim) {} b).1 (emitted (Transducer.run (step lim) {} b).2)
      (Transducer.run (step lim') {} b).1 (emitted (Transducer.run (step lim') {} b).2) := by
  refine Transducer.run_relation
    (P := fun a out a' out' => SplitRelation a (emitted out) a' (emitted out'))
    splitRelation_initial (fun a out a' out' x h => ?_) b
  obtain ⟨groups, rest, hout, hsplit⟩ := h.splitting
  obtain ⟨groups', rest', hflat, hsplit'⟩ := splitting_step hlim h.now h.bounded hsplit x
  refine ⟨by simp [h.now], (step_advances lim' h.bounded x).bounded, groups', rest', ?_, ?_⟩
  · simpa [hout] using hflat
  · simpa using hsplit'

end Segmenter

/-- `group` cuts the segment `s` from end to end, in order. -/
structure SpeechSegment.SubdividedBy (s : SpeechSegment) (group : List SpeechSegment) :
    Prop where
  head : group.head?.map startSample = some s.startSample
  last : group.getLast?.map endSample = some s.endSample
  inside : ∀ x ∈ group, s.startSample ≤ x.startSample ∧ x.startSample ≤ x.endSample ∧
    x.endSample ≤ s.endSample
  increasing : group.Pairwise fun x y => x.endSample < y.startSample

theorem Subdivides.toSamples {start stop : ℕ} {pieces : List (ℕ × ℕ)}
    (h : Subdivides start stop pieces) :
    (toSamples (start, stop)).SubdividedBy (pieces.map FireredVad.toSamples) := by
  have hhead := congrArg (Option.map (· * frameShiftSamples)) h.head
  have hlast := congrArg (Option.map (· * frameShiftSamples)) h.last
  refine ⟨?_, ?_, ?_, ?_⟩
  · simpa [Option.map_map, Function.comp_def, FireredVad.toSamples] using hhead
  · simpa [Option.map_map, Function.comp_def, FireredVad.toSamples] using hlast
  · intro x hx
    obtain ⟨f, hf, rfl⟩ := List.mem_map.mp hx
    have := h.inside f hf
    simp only [FireredVad.toSamples, frameShiftSamples]
    omega
  · refine List.pairwise_map.mpr (h.increasing.imp fun hfg => ?_)
    simp only [FireredVad.toSamples, frameShiftSamples]
    omega

namespace Postprocessor

variable {F32 F64 : Type} [FloatOps F32] [FloatOps F64] [FloatCast F32 F64]

/-- Options that differ only in the maximum duration give the same speech flags and the
same active frames. Each segment of the run without it is cut into consecutive segments
of the other run, whose remaining segments belong to the segment still open. -/
theorem forceSplit_subdivides (o : VadOptions F32) (d : Duration) (probs : List F32) :
    let plain : Postprocessor F32 F64 := new o.clearMaxSpeechDuration
    let split : Postprocessor F32 F64 := new (o.withMaxSpeechDuration d)
    split.flags probs = plain.flags probs ∧
    (∀ n, (split.pushAll (probs.take n)).1.isActive = (plain.pushAll (probs.take n)).1.isActive) ∧
    ∃ groups rest, split.segments probs = groups.flatten ++ rest ∧
      List.Forall₂ SpeechSegment.SubdividedBy (plain.segments probs) groups ∧
      ∀ s ∈ rest, ∃ start, (plain.pushAll probs).1.lastSpeechStartFrame = some start ∧
        start * frameShiftSamples ≤ s.startSample := by
  intro plain split
  have hflags (raws : List F32) : split.flags raws = plain.flags raws :=
    (show SmoothsLike plain split from ⟨rfl, rfl, rfl⟩).flags rfl raws
  have hlim : Segmenter.SplitsOnly plain.options.limits split.options.limits :=
    ⟨rfl, rfl, rfl, rfl⟩
  have hrun (raws : List F32) := Segmenter.splitRelation_run hlim (plain.flags raws)
  have hplain : plain.toMachine.Coherent := coherent_new _
  have hsplit : split.toMachine.Coherent := coherent_new _
  refine ⟨hflags probs, fun n => ?_, ?_⟩
  · have hlevel := (hrun (probs.take n)).level
    rw [isActive_eq_level, isActive_eq_level, level, level,
      (pushAll_segmenter hplain _).2.1, (pushAll_segmenter hsplit _).2.1, hflags]
    exact congrArg _ hlevel
  · obtain ⟨groups, rest, hout, h⟩ := (hrun probs).splitting
    refine ⟨groups.map (List.map toSamples), rest.map toSamples, ?_, ?_, ?_⟩
    · rw [segments_eq hsplit, hflags]
      exact (congrArg (List.map toSamples) hout).trans (by simp [List.map_flatten])
    · rw [segments_eq hplain]
      exact List.forall₂_map_left_iff.mpr (List.forall₂_map_right_iff.mpr
        (h.subdivides.imp fun _ _ hg => hg.toSamples))
    · intro s hs
      obtain ⟨f, hf, rfl⟩ := List.mem_map.mp hs
      obtain ⟨quiet, start, base, hphase, hstart, hle⟩ := h.rest_le f hf
      obtain ⟨hcoherent, hseg, -⟩ := pushAll_segmenter hplain probs
      have hstart' : start < (plain.pushAll probs).1.toMachine.segmenter.now := hseg ▸ hstart
      have hopen : (plain.pushAll probs).1.lastSpeechStartFrame = some start :=
        hcoherent.lastSpeechStartFrame (hseg ▸ hphase) hstart'
      exact ⟨start, hopen, Nat.mul_le_mul_right _ hle⟩

end Postprocessor

end FireredVad
