import FireredVad.DetectorRuns

/-!
# Emitted segments are ordered and disjoint

Every emitted segment lies between the floor before its frame and the floor after it,
and the floor never passes the frame count. Two segments therefore never overlap,
whichever limits were in force and whether a push or the end of the stream closed them.
-/

namespace FireredVad

namespace Segmenter

structure Bounded (a : Segmenter) : Prop where
  floor_le : a.floor ≤ a.now
  start : ∀ quiet st base, a.phase = .active quiet st base → a.floor ≤ st ∧ st ≤ a.now

theorem bounded_initial : Bounded {} := ⟨Nat.le_refl 0, by simp⟩

theorem Bounded.active {now floor quiet st base : ℕ} (h : floor ≤ st) (h' : st ≤ now) :
    Bounded ⟨now, floor, .active quiet st base⟩ :=
  ⟨h.trans h', by rintro _ _ _ ⟨⟩; exact ⟨h, h'⟩⟩

theorem Bounded.idle {now floor run : ℕ} (h : floor ≤ now) : Bounded ⟨now, floor, .idle run⟩ :=
  ⟨h, by simp⟩

/-- A new floor is reached, and what is emitted lies between the old one and the new. -/
structure Advances (a a' : Segmenter) (out : Option (ℕ × ℕ)) : Prop where
  bounded : a'.Bounded
  floor_le : a.floor ≤ a'.floor
  emits : ∀ f ∈ out, a.floor ≤ f.1 ∧ f.1 ≤ f.2 ∧ f.2 ≤ a'.floor

private theorem Advances.quiet {a a' : Segmenter} (h : a'.Bounded) (hf : a'.floor = a.floor) :
    Advances a a' none := ⟨h, hf.ge, by simp⟩

theorem step_advances (lim : FrameLimits) {a : Segmenter} (h : a.Bounded) (b : Bool) :
    Advances a (a.step lim b).1 (a.step lim b).2 := by
  obtain ⟨now, floor, phase⟩ := a
  have hfloor : floor ≤ now := h.floor_le
  cases phase with
  | idle run =>
    cases b with
    | false => exact .quiet (.idle (hfloor.trans (Nat.le_succ now))) rfl
    | true =>
      simp only [step]
      split
      · exact .quiet (.active (Nat.le_max_right _ _) (by omega)) rfl
      · exact .quiet (.idle (by omega)) rfl
  | active quiet st base =>
    obtain ⟨hst, hnow⟩ := h.start _ _ _ rfl
    dsimp only at hst hnow
    have hcut : ∀ f ∈ some (st, now), floor ≤ f.1 ∧ f.1 ≤ f.2 ∧ f.2 ≤ now + 1 := by
      rintro f ⟨⟩
      exact ⟨hst, hnow, Nat.le_succ now⟩
    cases b with
    | true =>
      simp only [step]
      split
      · exact ⟨.active (Nat.le_refl _) (Nat.le_refl _), by dsimp only; omega, hcut⟩
      · exact .quiet (.active hst (by omega)) rfl
    | false =>
      simp only [step]
      split
      · exact ⟨.idle (Nat.le_refl _), by dsimp only; omega, hcut⟩
      · exact .quiet (.active hst (by omega)) rfl

theorem finish_advances {a : Segmenter} (h : a.Bounded) :
    Advances a a.finish.1 a.finish.2 := by
  obtain ⟨now, floor, phase⟩ := a
  cases phase with
  | idle run => exact .quiet h rfl
  | active quiet st base =>
    obtain ⟨hst, hnow⟩ := h.start _ _ _ rfl
    simp only [finish]
    split
    · refine ⟨.idle (Nat.le_refl _), h.floor_le, ?_⟩
      rintro f ⟨⟩
      exact ⟨hst, hnow, Nat.le_refl now⟩
    · exact .quiet h rfl

/-- The emitted frame pairs are ordered and end no later than the floor. -/
structure Ordered (a : Segmenter) (out : List (ℕ × ℕ)) : Prop where
  bounded : a.Bounded
  pairwise : out.Pairwise fun f g => f.2 ≤ g.1
  le_floor : ∀ f ∈ out, f.1 ≤ f.2 ∧ f.2 ≤ a.floor

theorem ordered_initial : Ordered {} [] := ⟨bounded_initial, .nil, by simp⟩

theorem Ordered.advance {a a' : Segmenter} {out : List (ℕ × ℕ)} {o : Option (ℕ × ℕ)}
    (h : Ordered a out) (ha : Advances a a' o) : Ordered a' (out ++ o.toList) := by
  refine ⟨ha.bounded, ?_, ?_⟩
  · refine List.pairwise_append.mpr ⟨h.pairwise, by cases o <;> simp, ?_⟩
    intro f hf g hg
    exact ((h.le_floor f hf).2).trans (ha.emits g (by simpa using hg)).1
  · intro f hf
    rcases List.mem_append.mp hf with hf | hf
    · exact ⟨(h.le_floor f hf).1, (h.le_floor f hf).2.trans ha.floor_le⟩
    · exact (ha.emits f (by simpa using hf)).2

theorem Ordered.run (lim : FrameLimits) {a : Segmenter} {out : List (ℕ × ℕ)}
    (h : Ordered a out) (b : List Bool) :
    Ordered (Transducer.run (step lim) a b).1
      (out ++ emitted (Transducer.run (step lim) a b).2) := by
  induction b generalizing a out with
  | nil => simpa using h
  | cons x b ih =>
    have hrun := ih (h.advance (step_advances lim h.bounded x))
    rwa [List.append_assoc, ← emitted_cons] at hrun

/-- The whole output lies between zero and the frame count. -/
theorem Ordered.le_now {a : Segmenter} {out : List (ℕ × ℕ)} (h : Ordered a out) :
    ∀ f ∈ out, f.1 ≤ f.2 ∧ f.2 ≤ a.now := fun f hf =>
  ⟨(h.le_floor f hf).1, (h.le_floor f hf).2.trans h.bounded.floor_le⟩

end Segmenter

end FireredVad
