import FireredVad.DetectorRuns

/-!
# Openings and closings alternate

Whether a segment is open is recorded three times: in the state, in the start frame and
in the re-arm flag. The coherent states are those where the three agree, and there every
call announces a start only when none is open and a closing only with its segment.
-/

namespace FireredVad

/-- What a caller observes of the segments: an announced start frame, or a closing
together with the segment that came with it. -/
inductive Event where
  | speechStart (frame : Option ℕ)
  | speechEnd (segment : Option SpeechSegment)
  deriving DecidableEq, Repr

/-- The events lead from the first open start frame to the second. A start needs a frame
and no open segment; a closing needs an open segment, and a segment that starts there. -/
inductive Alternates : Option ℕ → List Event → Option ℕ → Prop
  | done (opened : Option ℕ) : Alternates opened [] opened
  | starts {start : ℕ} {es : List Event} {last : Option ℕ}
      (hrest : Alternates (some start) es last) :
      Alternates none (.speechStart (some start) :: es) last
  | ends {start : ℕ} {segment : SpeechSegment} {es : List Event} {last : Option ℕ}
      (hstart : segment.startSample = start * frameShiftSamples)
      (hrest : Alternates none es last) :
      Alternates (some start) (.speechEnd (some segment) :: es) last

theorem Alternates.append {first mid last : Option ℕ} {es es' : List Event}
    (h : Alternates first es mid) (h' : Alternates mid es' last) :
    Alternates first (es ++ es') last := by
  induction h with
  | done opened => exact h'
  | starts _ ih => exact .starts (ih h')
  | ends hstart _ ih => exact .ends hstart (ih h')

/-- Every closing in the list came with its segment. -/
theorem Alternates.segment_isSome {first last : Option ℕ} {es : List Event}
    (h : Alternates first es last) {segment : Option SpeechSegment}
    (hmem : .speechEnd segment ∈ es) : segment.isSome := by
  induction h with
  | done opened => simp at hmem
  | starts _ ih => exact ih (by simpa using hmem)
  | ends _ _ ih =>
    rcases List.mem_cons.mp hmem with heq | hmem
    · cases heq
      rfl
    · exact ih hmem

/-- The events of one frame: a start precedes an end. -/
def frameEvents (isSpeechStart isSpeechEnd : Bool) (start : Option ℕ)
    (segment : Option SpeechSegment) : List Event :=
  (if isSpeechStart then [.speechStart start] else []) ++
    (if isSpeechEnd then [.speechEnd segment] else [])

namespace Machine

def events (mk : Marks) : List Event :=
  frameEvents mk.isSpeechStart mk.isSpeechEnd mk.startFrame mk.segment

/-- A frame with a segment open and no re-arm pending. -/
private theorem active_alternates (lim : FrameLimits) {state : VadState}
    (hstate : state = .speech ∨ state = .possibleSilence) (n q start cnt : ℕ)
    (stop : Option ℕ) (b : Bool) :
    let r := step lim ⟨state, n, q, false, some start, stop, cnt⟩ b
    r.2.isSpeechStart = false ∧
      Alternates (some start) (events r.2) r.1.lastSpeechStartFrame ∧
      (r.2.isSpeechEnd = true → r.2.startFrame = some start) := by
  have hcut : Alternates (some start)
      (events { isSpeechEnd := true, startFrame := some start, endFrame := some cnt }) none :=
    .ends rfl (.done none)
  cases b with
  | true =>
    rw [step_active_speech _ _ _ _ _ _ hstate]
    split
    · exact ⟨rfl, hcut, fun _ => rfl⟩
    · exact ⟨rfl, .done _, by simp⟩
  | false =>
    rcases hstate with rfl | rfl
    · exact ⟨rfl, .done _, by simp [step_speech_silence]⟩
    · rw [step_possibleSilence_silence]
      split
      · exact ⟨rfl, hcut, fun _ => rfl⟩
      · exact ⟨rfl, .done _, by simp⟩

theorem step_alternates (lim : FrameLimits) {s : Machine} (h : s.Coherent) (b : Bool) :
    Alternates s.lastSpeechStartFrame (events (s.step lim b).2)
      (s.step lim b).1.lastSpeechStartFrame := by
  cases h with
  | silence silenceCnt stop cnt hstop => cases b <;> exact .done none
  | possibleSpeech run silenceCnt stop cnt hrun hstop =>
    cases b with
    | false => exact .done none
    | true =>
      rw [step_possibleSpeech_speech]
      split
      · exact .starts (.done _)
      · exact .done none
  | speech count start stop cnt hcount hstart hstop =>
    exact (active_alternates lim (.inl rfl) _ _ _ _ _ b).2.1
  | possibleSilence count quiet start stop cnt hcount hstart hstop =>
    exact (active_alternates lim (.inr rfl) _ _ _ _ _ b).2.1
  | armed stop cnt hstop =>
    -- the announced start, then what the frame does in a segment that starts on it
    obtain ⟨hquiet, halt, hend⟩ := active_alternates lim (.inl rfl) 0 0 cnt cnt stop b
    rw [step_armed]
    refine .starts ?_
    dsimp only
    generalize step lim ⟨.speech, 0, 0, false, some cnt, stop, cnt⟩ b = r at *
    obtain ⟨s', ⟨isStart, isEnd, start, endFrame⟩⟩ := r
    obtain rfl : isStart = false := hquiet
    cases isEnd with
    | false => exact halt
    | true =>
      obtain rfl : start = some cnt := hend rfl
      exact halt

theorem finishActive_alternates {s : Machine} (h : s.Coherent) :
    Alternates s.lastSpeechStartFrame
      (frameEvents false s.finishActive.2.isSome none s.finishActive.2)
      s.finishActive.1.lastSpeechStartFrame := by
  cases h with
  | silence silenceCnt stop cnt hstop => exact .done none
  | possibleSpeech run silenceCnt stop cnt hrun hstop => exact .done none
  | armed stop cnt hstop => exact .done none
  | speech count start stop cnt hcount hstart hstop => exact .ends rfl (.done none)
  | possibleSilence count quiet start stop cnt hcount hstart hstop =>
    exact .ends rfl (.done none)

theorem Coherent.isActive_eq_xor {s : Machine} (h : s.Coherent) :
    s.isActive = (s.lastSpeechStartFrame.isSome ^^ s.hitMaxSpeech) := by
  cases h <;> rfl

theorem Coherent.not_both {s : Machine} (h : s.Coherent) :
    (s.lastSpeechStartFrame.isSome && s.hitMaxSpeech) = false := by
  cases h <;> rfl

end Machine

namespace Postprocessor

variable {F32 F64 : Type}

/-- The calls a caller can interleave. -/
inductive Call (F32 : Type) where
  | pushProbability (rawProb : F32)
  | setOptions (options : VadOptions F32)
  | finishActive

inductive Answer (F32 : Type) where
  | frame (result : FrameResult F32) (segment : Option SpeechSegment)
  | optionsSet
  | finished (segment : Option SpeechSegment)

def Answer.events : Answer F32 → List Event
  | frame result segment =>
    frameEvents result.isSpeechStart result.isSpeechEnd result.speechStartFrame segment
  | optionsSet => []
  | finished segment => frameEvents false segment.isSome none segment

variable [FloatOps F32] [FloatOps F64] [FloatCast F32 F64]

def call (p : Postprocessor F32 F64) : Call F32 → Postprocessor F32 F64 × Answer F32
  | .pushProbability rawProb =>
    let r := p.pushProbability rawProb
    (r.1, .frame r.2.1 r.2.2)
  | .setOptions options => (p.setOptions options, .optionsSet)
  | .finishActive =>
    let r := p.finishActive
    (r.1, .finished r.2)

theorem call_coherent {p : Postprocessor F32 F64} (hp : p.toMachine.Coherent) (c : Call F32) :
    (p.call c).1.toMachine.Coherent := by
  cases c with
  | pushProbability rawProb => exact pushProbability_coherent hp rawProb
  | setOptions options => simpa [call] using hp
  | finishActive => exact (Machine.finish_refines hp).1

/-- The events of a call lead from the start frame before it to the one after it. -/
theorem call_alternates {p : Postprocessor F32 F64} (hp : p.toMachine.Coherent) (c : Call F32) :
    Alternates p.lastSpeechStartFrame (p.call c).2.events (p.call c).1.lastSpeechStartFrame := by
  cases c with
  | pushProbability rawProb =>
    have h := Machine.step_alternates p.options.limits hp (p.pushProbability rawProb).2.1.isSpeech
    rw [← pushProbability_machine] at h
    simpa [call, Answer.events, Machine.events, pushProbability] using h
  | setOptions options => simpa [call, Answer.events] using Alternates.done _
  | finishActive => exact Machine.finishActive_alternates hp

/-- In every run of pushes, option changes and ends of stream, starts and ends alternate
from a start on, every end comes with the segment that starts at the announced frame, and
the start frame is set exactly while a segment is open. In the state reached the detector
is active iff one of the start frame and the re-arm flag is set, and never both are. -/
theorem starts_and_ends_alternate (o : VadOptions F32) (calls : List (Call F32)) :
    let r := Transducer.run call (new o : Postprocessor F32 F64) calls
    Alternates none (r.2.flatMap Answer.events) r.1.lastSpeechStartFrame ∧
    (∀ f segment, .frame f segment ∈ r.2 → f.isSpeechEnd = true → segment.isSome) ∧
    r.1.isActive = (r.1.lastSpeechStartFrame.isSome ^^ r.1.hitMaxSpeech) ∧
    (r.1.lastSpeechStartFrame.isSome && r.1.hitMaxSpeech) = false := by
  intro r
  let P (_ : List (Call F32)) (p : Postprocessor F32 F64) (out : List (Answer F32)) : Prop :=
    p.toMachine.Coherent ∧ Alternates none (out.flatMap Answer.events) p.lastSpeechStartFrame
  obtain ⟨hcoherent, halt⟩ : P calls r.1 r.2 := by
    refine Transducer.run_induction calls ⟨coherent_new o, .done none⟩ ?_
    rintro pre c - ⟨hp, halt⟩
    refine ⟨call_coherent hp c, ?_⟩
    rw [List.flatMap_append, List.flatMap_singleton]
    exact halt.append (call_alternates hp c)
  refine ⟨halt, ?_, hcoherent.isActive_eq_xor, hcoherent.not_both⟩
  intro f segment hmem hend
  apply halt.segment_isSome
  apply List.mem_flatMap.mpr
  exact ⟨_, hmem, by simp [Answer.events, frameEvents, hend]⟩

end Postprocessor

end FireredVad
