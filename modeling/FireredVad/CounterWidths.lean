import FireredVad.CallRuns
import FireredVad.Checked

/-!
# The widths of the counters

The detector again, with `u32` counters and `u64` frames whose additions and products are
checked. Frames and samples fit for as long as any stream lasts. The `u32` counters count
the frames of one stretch, silent frames in a row or the frames of an open piece, and they
fit exactly as long as no stretch is too long for them.
-/

namespace FireredVad

def u64Max : ℕ := 2 ^ 64 - 1

/-- The longest stream: up to here the samples of a frame fit in `u64`. -/
def maxFrames : ℕ := 2 ^ 56

namespace Machine

/-- `self.speech_cnt += 1`. -/
def incrSpeech? (s : Machine) : Option Machine :=
  (Checked.add? u32Max s.speechCnt 1).map fun n => { s with speechCnt := n }

/-- `self.silence_cnt += 1`. -/
def incrSilence? (s : Machine) : Option Machine :=
  (Checked.add? u32Max s.silenceCnt 1).map fun n => { s with silenceCnt := n }

/-- `saturating_add` cannot fail, the additions around `lower` can. -/
def paddedSpeechStart? (s : Machine) (pad : ℕ) : Option ℕ := do
  let raw := min (s.frameCnt1Based - s.speechCnt + 1) u64Max - pad
  let lower ←
    match s.lastSpeechEndFrame with
    | some e => Checked.add? u64Max e 1
    | none => some 0
  let next ← Checked.add? u64Max lower 1
  return max (max raw 1) next - 1

/-- `match self.state { .. }`. -/
def advance? (lim : FrameLimits) (isSpeech : Bool) (s : Machine) (mk : Marks) :
    Option (Machine × Marks) :=
  match s.state with
  | .silence =>
    if isSpeech then do
      let s ← incrSpeech? { s with state := .possibleSpeech }
      return (s, mk)
    else do
      let s ← incrSilence? s
      return ({ s with speechCnt := 0 }, mk)
  | .possibleSpeech =>
    if isSpeech then do
      let s ← incrSpeech? s
      if lim.minSpeechFrames ≤ s.speechCnt then
        let newStart ← paddedSpeechStart? { s with state := .speech } lim.padStartFrames
        return ({ s with
            state := .speech
            lastSpeechStartFrame := some newStart
            silenceCnt := 0 },
          { mk with isSpeechStart := true, startFrame := some newStart })
      else return (s, mk)
    else return ({ s with state := .silence, silenceCnt := 1, speechCnt := 0 }, mk)
  | .speech => do
    let s ← incrSpeech? s
    if isSpeech then
      return forceSplit lim.maxSpeechFrames { s with silenceCnt := 0 } mk
    else
      let s ← incrSilence? { s with state := .possibleSilence }
      return (s, mk)
  | .possibleSilence => do
    let s ← incrSpeech? s
    if isSpeech then
      return forceSplit lim.maxSpeechFrames { s with state := .speech, silenceCnt := 0 } mk
    else
      let s ← incrSilence? s
      if lim.minSilenceFrames ≤ s.silenceCnt then
        return close { s with state := .silence } mk
      else return (s, mk)

def step? (lim : FrameLimits) (s : Machine) (isSpeech : Bool) : Option (Machine × Marks) := do
  let cnt ← Checked.add? u64Max s.frameCnt1Based 1
  let r := rearm { s with frameCnt1Based := cnt }
  advance? lim isSpeech r.1 r.2

/-- Whether a frame makes the machine count speech. -/
def countsSpeech (s : Machine) (isSpeech : Bool) : Bool := s.isActive || isSpeech

/-- Whether a frame makes the machine count silence. -/
def countsSilence (s : Machine) (isSpeech : Bool) : Bool :=
  decide (s.state ≠ .possibleSpeech) && !isSpeech

/-- The counters that a frame makes the machine count up have room for it. -/
def Room (s : Machine) (isSpeech : Bool) : Prop :=
  (s.countsSpeech isSpeech = true → s.speechCnt < u32Max) ∧
    (s.countsSilence isSpeech = true → s.silenceCnt < u32Max)

instance (s : Machine) (b : Bool) : Decidable (s.Room b) := inferInstanceAs (Decidable (_ ∧ _))

theorem incrSpeech?_eq (s : Machine) : s.incrSpeech? =
    if s.speechCnt < u32Max then some { s with speechCnt := s.speechCnt + 1 } else none := by
  rw [incrSpeech?, Checked.add?]
  by_cases h : s.speechCnt < u32Max
  · rw [if_pos h, if_pos (Nat.succ_le_of_lt h)]
    rfl
  · rw [if_neg h, if_neg (mt Nat.lt_of_succ_le h)]
    rfl

theorem incrSilence?_eq (s : Machine) : s.incrSilence? =
    if s.silenceCnt < u32Max then some { s with silenceCnt := s.silenceCnt + 1 } else none := by
  rw [incrSilence?, Checked.add?]
  by_cases h : s.silenceCnt < u32Max
  · rw [if_pos h, if_pos (Nat.succ_le_of_lt h)]
    rfl
  · rw [if_neg h, if_neg (mt Nat.lt_of_succ_le h)]
    rfl

/-- The frames of a stream that is not too long. -/
structure Bounded (s : Machine) : Prop where
  frames : s.frameCnt1Based ≤ maxFrames
  closed : floorAfter s.lastSpeechEndFrame ≤ maxFrames

theorem succ_le_u64Max {n : ℕ} (h : n ≤ maxFrames) : n + 1 ≤ u64Max :=
  (Nat.succ_le_succ h).trans (by decide)

theorem mul_le_u64Max {n : ℕ} (h : n ≤ maxFrames) : n * frameShiftSamples ≤ u64Max :=
  (Nat.mul_le_mul_right frameShiftSamples h).trans (by decide)

theorem paddedSpeechStart?_eq {s : Machine} (h : s.Bounded) (pad : ℕ) :
    s.paddedSpeechStart? pad = some (s.paddedSpeechStart pad) := by
  have hraw : s.frameCnt1Based - s.speechCnt + 1 ≤ u64Max :=
    (Nat.succ_le_succ (Nat.sub_le _ _)).trans (succ_le_u64Max h.frames)
  have hnext : floorAfter s.lastSpeechEndFrame + 1 ≤ u64Max := succ_le_u64Max h.closed
  simp only [paddedSpeechStart?, paddedSpeechStart, Nat.min_eq_left hraw]
  cases hstop : s.lastSpeechEndFrame with
  | none => rfl
  | some e =>
    rw [hstop, floorAfter_some] at hnext
    simp only [Checked.add?_eq (Nat.le_of_succ_le hnext), Checked.add?_eq hnext,
      Option.bind_eq_bind, Option.bind_some, Option.pure_def, Option.map_some,
      Option.getD_some]

section Rooms

variable (n q cnt : ℕ) (armed : Bool) (start stop : Option ℕ) (b : Bool)

theorem room_silence :
    Room ⟨.silence, n, q, armed, start, stop, cnt⟩ b ↔
      if b then n < u32Max else q < u32Max := by
  cases b <;> simp [Room, countsSpeech, countsSilence, isActive]

theorem room_possibleSpeech :
    Room ⟨.possibleSpeech, n, q, armed, start, stop, cnt⟩ b ↔ (b = true → n < u32Max) := by
  cases b <;> simp [Room, countsSpeech, countsSilence, isActive]

theorem room_active {state : VadState} (hstate : state = .speech ∨ state = .possibleSilence) :
    Room ⟨state, n, q, armed, start, stop, cnt⟩ b ↔
      n < u32Max ∧ (b = false → q < u32Max) := by
  rcases hstate with rfl | rfl <;> cases b <;> simp [Room, countsSpeech, countsSilence, isActive]

end Rooms

/-- The counters alone decide whether the checked machine fails. -/
theorem advance?_eq (lim : FrameLimits) (b : Bool) {s : Machine} (h : s.Bounded) (mk : Marks) :
    advance? lim b s mk = if s.Room b then some (advance lim b s mk) else none := by
  obtain ⟨state, n, q, armed, start, stop, cnt⟩ := s
  cases state with
  | silence =>
    simp only [room_silence]
    cases b with
    | true => by_cases hn : n < u32Max <;> simp [advance?, advance, incrSpeech?_eq, hn]
    | false => by_cases hq : q < u32Max <;> simp [advance?, advance, incrSilence?_eq, hq]
  | possibleSpeech =>
    simp only [room_possibleSpeech]
    cases b with
    | true =>
      have hpad := paddedSpeechStart?_eq (s := ⟨.speech, n + 1, q, armed, start, stop, cnt⟩)
        ⟨h.frames, h.closed⟩ lim.padStartFrames
      by_cases hn : n < u32Max
      · by_cases hmin : lim.minSpeechFrames ≤ n + 1
        · simp [advance?, advance, incrSpeech?_eq, hn, hpad, hmin, paddedSpeechStart]
        · simp [advance?, advance, incrSpeech?_eq, hn, hmin]
      · simp [advance?, incrSpeech?_eq, hn]
    | false => simp [advance?, advance]
  | speech =>
    simp only [room_active _ _ _ _ _ _ _ (.inl rfl)]
    by_cases hn : n < u32Max
    · cases b with
      | true => simp [advance?, advance, incrSpeech?_eq, hn]
      | false =>
        by_cases hq : q < u32Max <;>
          simp [advance?, advance, incrSpeech?_eq, incrSilence?_eq, hn, hq]
    · simp [advance?, incrSpeech?_eq, hn]
  | possibleSilence =>
    simp only [room_active _ _ _ _ _ _ _ (.inr rfl)]
    by_cases hn : n < u32Max
    · cases b with
      | true => simp [advance?, advance, incrSpeech?_eq, hn]
      | false =>
        by_cases hq : q < u32Max
        · by_cases hmin : lim.minSilenceFrames ≤ q + 1 <;>
            simp [advance?, advance, incrSpeech?_eq, incrSilence?_eq, hn, hq, hmin]
        · simp [advance?, incrSpeech?_eq, incrSilence?_eq, hn, hq]
    · simp [advance?, incrSpeech?_eq, hn]

theorem step?_eq (lim : FrameLimits) (b : Bool) {s : Machine} (h : s.Bounded)
    (hcnt : s.frameCnt1Based < maxFrames) :
    s.step? lim b = if s.Room b then some (s.step lim b) else none := by
  let next : Machine := { s with frameCnt1Based := s.frameCnt1Based + 1 }
  have hnext : next.rearm.1.Bounded ∧ (next.rearm.1.Room b ↔ s.Room b) := by
    cases harmed : s.hitMaxSpeech with
    | true =>
      simp only [rearm, next, harmed, if_true]
      exact ⟨⟨hcnt, h.closed⟩, Iff.rfl⟩
    | false =>
      simp only [rearm, next, harmed, Bool.false_eq_true, if_false]
      exact ⟨⟨hcnt, h.closed⟩, Iff.rfl⟩
  simp only [step?, Checked.add?_eq (succ_le_u64Max h.frames), Option.bind_eq_bind,
    Option.bind_some]
  rw [advance?_eq lim b hnext.1]
  by_cases hroom : s.Room b
  · rw [if_pos hroom, if_pos (hnext.2.mpr hroom)]
    rfl
  · rw [if_neg hroom, if_neg (mt hnext.2.mp hroom)]

theorem Coherent.closed_le {s : Machine} (h : s.Coherent) :
    floorAfter s.lastSpeechEndFrame ≤ s.frameCnt1Based := by
  cases h with
  | silence silenceCnt stop cnt hstop => exact hstop
  | possibleSpeech run silenceCnt stop cnt hrun hstop => exact hstop
  | speech count start stop cnt hcount hstart hstop => exact hstop
  | armed stop cnt hstop => exact hstop
  | possibleSilence count quiet start stop cnt hcount hstart hstop => exact hstop

/-- The frames that the marks report are at most the `cnt`-th. -/
structure MarksUpTo (cnt : ℕ) (mk : Marks) : Prop where
  start : ∀ f ∈ mk.startFrame, f ≤ cnt
  stop : ∀ f ∈ mk.endFrame, f ≤ cnt

theorem marksUpTo_nothing (cnt : ℕ) : MarksUpTo cnt {} := ⟨nofun, nofun⟩

private theorem active_marksUpTo (lim : FrameLimits) {state : VadState}
    (hstate : state = .speech ∨ state = .possibleSilence) (n q : ℕ) {start cnt : ℕ}
    (hstart : start ≤ cnt) (stop : Option ℕ) (b : Bool) :
    MarksUpTo cnt (step lim ⟨state, n, q, false, some start, stop, cnt⟩ b).2 := by
  have hcut : MarksUpTo cnt
      { isSpeechEnd := true, startFrame := some start, endFrame := some cnt } := by
    constructor
    · intro f hf
      exact Option.some.inj hf ▸ hstart
    · intro f hf
      exact (Option.some.inj hf).symm.le
  cases b with
  | true =>
    rw [step_active_speech _ _ _ _ _ _ hstate]
    split
    · exact hcut
    · exact marksUpTo_nothing cnt
  | false =>
    rcases hstate with rfl | rfl
    · exact marksUpTo_nothing cnt
    · rw [step_possibleSilence_silence]
      split
      · exact hcut
      · exact marksUpTo_nothing cnt

/-- A frame result reports frames that have been seen. -/
theorem Coherent.step_marksUpTo (lim : FrameLimits) {s : Machine} (h : s.Coherent) (b : Bool) :
    MarksUpTo s.frameCnt1Based (s.step lim b).2 := by
  cases h with
  | silence silenceCnt stop cnt hstop => cases b <;> exact marksUpTo_nothing cnt
  | possibleSpeech run silenceCnt stop cnt hrun hstop =>
    cases b with
    | false => exact marksUpTo_nothing cnt
    | true =>
      rw [step_possibleSpeech_speech]
      split
      · refine ⟨?_, nofun⟩
        intro f hf
        obtain rfl := Option.some.inj hf
        dsimp only
        omega
      · exact marksUpTo_nothing cnt
  | speech count start stop cnt hcount hstart hstop =>
    exact active_marksUpTo lim (.inl rfl) _ _ hstart.le _ b
  | possibleSilence count quiet start stop cnt hcount hstart hstop =>
    exact active_marksUpTo lim (.inr rfl) _ _ hstart.le _ b
  | armed stop cnt hstop =>
    have hmarks := active_marksUpTo lim (.inl rfl) 0 0 (Nat.le_refl cnt) stop b
    rw [step_armed]
    refine ⟨?_, hmarks.stop⟩
    intro f hf
    exact (Option.some.inj hf).symm.le

end Machine

/-- The products of a segment in samples. -/
def Marks.segment? (mk : Marks) : Option (Option SpeechSegment) :=
  if mk.isSpeechEnd then
    match mk.startFrame, mk.endFrame with
    | some start, some stop => do
      let startSample ← Checked.mul? u64Max start frameShiftSamples
      let endSample ← Checked.mul? u64Max stop frameShiftSamples
      return some ⟨startSample, endSample⟩
    | _, _ => some none
  else some none

theorem Marks.segment?_eq {mk : Marks} {cnt : ℕ} (h : Machine.MarksUpTo cnt mk)
    (hcnt : cnt ≤ maxFrames) : mk.segment? = some mk.segment := by
  obtain ⟨isStart, isEnd, start, stop⟩ := mk
  cases isEnd with
  | false => rfl
  | true =>
    cases start with
    | none => rfl
    | some start =>
      cases stop with
      | none => rfl
      | some stop =>
        have hstart := Machine.mul_le_u64Max ((h.start start rfl).trans hcnt)
        have hstop := Machine.mul_le_u64Max ((h.stop stop rfl).trans hcnt)
        simp only [segment?, segment, Checked.mul?_eq hstart, Checked.mul?_eq hstop, if_true,
          Option.bind_eq_bind, Option.bind_some, Option.pure_def]

namespace Machine

def finishActive? (s : Machine) : Option (Machine × Option SpeechSegment) :=
  if !s.isActive then some (s, none)
  else
    match s.lastSpeechStartFrame with
    | none => some (s, none)
    | some start => do
      let stop := s.frameCnt1Based
      let startSample ← Checked.mul? u64Max start frameShiftSamples
      let endSample ← Checked.mul? u64Max stop frameShiftSamples
      return ({ s with
          lastSpeechStartFrame := none
          state := .silence
          lastSpeechEndFrame := some (stop - 1)
          speechCnt := 0
          silenceCnt := 0 },
        some ⟨startSample, endSample⟩)

theorem Coherent.start_le {s : Machine} (h : s.Coherent) :
    ∀ f ∈ s.lastSpeechStartFrame, f ≤ s.frameCnt1Based := by
  intro f hf
  cases h with
  | speech count start stop cnt hcount hstart hstop => exact Option.some.inj hf ▸ hstart.le
  | possibleSilence count quiet start stop cnt hcount hstart hstop =>
    exact Option.some.inj hf ▸ hstart.le
  | _ => cases hf

theorem Coherent.finishActive?_eq {s : Machine} (h : s.Coherent)
    (hcnt : s.frameCnt1Based ≤ maxFrames) : s.finishActive? = some s.finishActive := by
  unfold finishActive? finishActive
  split
  · rfl
  · cases hstart : s.lastSpeechStartFrame with
    | none => rfl
    | some start =>
      have hle := (h.start_le start hstart).trans hcnt
      simp only [Checked.mul?_eq (mul_le_u64Max hle), Checked.mul?_eq (mul_le_u64Max hcnt),
        Option.bind_eq_bind, Option.bind_some, Option.pure_def]

end Machine

namespace Postprocessor

variable {F32 F64 : Type} [FloatOps F32] [FloatOps F64] [FloatCast F32 F64]

/-- The speech decision on the next frame. -/
def decides (p : Postprocessor F32 F64) (rawProb : F32) : Bool :=
  decide (p.options.speechThreshold ≤ (p.smooth rawProb).2)

def pushProbability? (p : Postprocessor F32 F64) (rawProb : F32) :
    Option (Postprocessor F32 F64 × FrameResult F32 × Option SpeechSegment) := do
  let r := p.smooth rawProb
  let isSpeech := decide (r.1.options.speechThreshold ≤ r.2)
  let m ← Machine.step? r.1.options.limits r.1.toMachine isSpeech
  let segment ← m.2.segment?
  return ({ r.1 with toMachine := m.1 },
    { frameIndex := m.1.frameCnt1Based - 1
      rawProb := rawProb
      smoothedProb := r.2
      isSpeech := isSpeech
      isSpeechStart := m.2.isSpeechStart
      isSpeechEnd := m.2.isSpeechEnd
      speechStartFrame := m.2.startFrame
      speechEndFrame := m.2.endFrame },
    segment)

def finishActive? (p : Postprocessor F32 F64) :
    Option (Postprocessor F32 F64 × Option SpeechSegment) := do
  let m ← p.toMachine.finishActive?
  return ({ p with toMachine := m.1 }, m.2)

/-- A call that fails where one of its additions or products overflows. `set_options` has
none. -/
def call? (p : Postprocessor F32 F64) : Call F32 → Option (Postprocessor F32 F64 × Answer F32)
  | .pushProbability rawProb =>
    (p.pushProbability? rawProb).map fun r => (r.1, .frame r.2.1 r.2.2)
  | .setOptions options => some (p.setOptions options, .optionsSet)
  | .finishActive => p.finishActive?.map fun r => (r.1, .finished r.2)

theorem pushProbability_isSpeech (p : Postprocessor F32 F64) (rawProb : F32) :
    (p.pushProbability rawProb).2.1.isSpeech = p.decides rawProb := by
  simp [pushProbability, decides]

theorem pushProbability?_eq {p : Postprocessor F32 F64} (hp : p.toMachine.Coherent)
    (hcnt : p.frameCnt1Based < maxFrames) (rawProb : F32) :
    p.pushProbability? rawProb =
      if p.toMachine.Room (p.decides rawProb) then some (p.pushProbability rawProb) else none := by
  have hbounded : p.toMachine.Bounded := ⟨hcnt.le, hp.closed_le.trans hcnt.le⟩
  have hstep := Machine.step?_eq p.options.limits (p.decides rawProb) hbounded hcnt
  have hsegment := Marks.segment?_eq
    (hp.step_marksUpTo p.options.limits (p.decides rawProb)) hcnt.le
  by_cases hroom : p.toMachine.Room (p.decides rawProb)
  · rw [if_pos hroom] at hstep ⊢
    simp only [decides] at hstep hsegment
    simp only [pushProbability?, smooth_options, smooth_toMachine, hstep, hsegment,
      Option.bind_eq_bind, Option.bind_some, Option.pure_def, pushProbability]
  · rw [if_neg hroom] at hstep ⊢
    simp only [decides] at hstep
    simp only [pushProbability?, smooth_options, smooth_toMachine, hstep, Option.bind_eq_bind,
      Option.bind_none]

omit [FloatOps F32] [FloatOps F64] [FloatCast F32 F64] in
theorem finishActive?_eq {p : Postprocessor F32 F64} (hp : p.toMachine.Coherent)
    (hcnt : p.frameCnt1Based ≤ maxFrames) : p.finishActive? = some p.finishActive := by
  simp only [finishActive?, hp.finishActive?_eq hcnt, Option.bind_eq_bind, Option.bind_some,
    Option.pure_def, finishActive]

end Postprocessor

end FireredVad
