import Mathlib.Algebra.Ring.Nat
import Mathlib.Data.List.Basic
import Mathlib.Order.Nat
import Mathlib.Tactic.Common

/-!
# Overlapping windows over a list

Windows of `len` samples start `hop` samples apart. Taking them as soon as they are full
and keeping the rest commutes with appending: how a stream is cut into pieces does not
matter.
-/

namespace Framing

variable {α : Type*} {len hop : ℕ}

/-- The full windows, and the samples from the start of the first window that is not full. -/
def windows (len hop : ℕ) [NeZero len] [NeZero hop] (xs : List α) :
    List (Fin len → α) × List α :=
  if h : len ≤ xs.length then
    let r := windows len hop (xs.drop hop)
    ((fun i => xs.get ⟨i, Nat.lt_of_lt_of_le i.isLt h⟩) :: r.1, r.2)
  else ([], xs)
termination_by xs.length
decreasing_by
  have := Nat.pos_of_neZero len
  have := Nat.pos_of_neZero hop
  simp only [List.length_drop]
  omega

variable [NeZero len] [NeZero hop]

theorem windows_full {xs : List α} (h : len ≤ xs.length) :
    windows len hop xs =
      ((fun i : Fin len => xs.get ⟨i, Nat.lt_of_lt_of_le i.isLt h⟩) :: (windows len hop (xs.drop hop)).1,
        (windows len hop (xs.drop hop)).2) := by
  rw [windows, dif_pos h]

theorem windows_short {xs : List α} (h : xs.length < len) : windows len hop xs = ([], xs) := by
  rw [windows, dif_neg (Nat.not_le.mpr h)]

/-- The rest is too short for a window, and every window has taken `hop` samples. -/
theorem windows_length (hhop : hop ≤ len) (xs : List α) :
    (windows len hop xs).2.length < len ∧
      (windows len hop xs).2.length + hop * (windows len hop xs).1.length = xs.length := by
  induction xs using windows.induct len hop with
  | case1 xs h ih =>
    rw [windows_full h]
    simp only [List.length_cons, List.length_drop] at ih ⊢
    rw [Nat.mul_succ]
    omega
  | case2 xs h =>
    rw [windows_short (Nat.lt_of_not_le h)]
    simpa using Nat.lt_of_not_le h

/-- Behind a full window there remain the samples that the next one shares with it. -/
theorem windows_rest (hhop : hop ≤ len) (xs : List α) :
    (windows len hop xs).1 = [] ∨ len - hop ≤ (windows len hop xs).2.length := by
  induction xs using windows.induct len hop with
  | case1 xs h ih =>
    refine .inr ?_
    rw [windows_full h]
    rcases ih with hnone | hrest
    · have hlength := (windows_length hhop (xs.drop hop)).2
      rw [hnone, List.length_nil, Nat.mul_zero, Nat.add_zero, List.length_drop] at hlength
      rw [hlength]
      exact Nat.sub_le_sub_right h hop
    · exact hrest
  | case2 xs h =>
    rw [windows_short (Nat.lt_of_not_le h)]
    exact .inl rfl

/-- The number of full windows. -/
theorem windows_count (xs : List α) :
    (windows len hop xs).1.length =
      if xs.length < len then 0 else 1 + (xs.length - len) / hop := by
  induction xs using windows.induct len hop with
  | case1 xs h ih =>
    have hlen : 0 < len := Nat.pos_of_neZero len
    have hhop : 0 < hop := Nat.pos_of_neZero hop
    rw [windows_full h, List.length_cons, ih, if_neg (Nat.not_lt.mpr h), List.length_drop]
    split
    · have hlast : (xs.length - len) / hop = 0 := Nat.div_eq_of_lt (by omega)
      omega
    · have hnext : xs.length - hop - len = xs.length - len - hop := by omega
      have hdiv : (xs.length - len) / hop = (xs.length - len - hop) / hop + 1 :=
        Nat.div_eq_sub_div hhop (by omega)
      rw [hnext, hdiv]
      omega
  | case2 xs h =>
    rw [windows_short (Nat.lt_of_not_le h), if_pos (Nat.lt_of_not_le h)]
    rfl

/-- The `k`-th window starts at sample `hop * k`. -/
theorem windows_getElem? {xs : List α} {k : ℕ} {w : Fin len → α}
    (h : (windows len hop xs).1[k]? = some w) (i : Fin len) :
    xs[hop * k + i]? = some (w i) := by
  induction xs using windows.induct len hop generalizing k with
  | case1 xs hfull ih =>
    rw [windows_full hfull] at h
    cases k with
    | zero =>
      obtain rfl : _ = w := Option.some.inj h
      simp [Nat.lt_of_lt_of_le i.isLt hfull]
    | succ k =>
      rw [← ih (k := k) (by simpa using h), List.getElem?_drop, Nat.mul_succ]
      congr 1
      omega
  | case2 xs hshort =>
    rw [windows_short (Nat.lt_of_not_le hshort)] at h
    simp at h

/-- The windows and the rest have no other samples. -/
theorem windows_forall {P : α → Prop} {xs : List α} (h : ∀ x ∈ xs, P x) :
    (∀ w ∈ (windows len hop xs).1, ∀ i, P (w i)) ∧ ∀ x ∈ (windows len hop xs).2, P x := by
  induction xs using windows.induct len hop with
  | case1 xs hfull ih =>
    obtain ⟨hwindows, hrest⟩ := ih fun x hx => h x (List.mem_of_mem_drop hx)
    rw [windows_full hfull]
    refine ⟨fun w hw => ?_, hrest⟩
    rcases List.mem_cons.mp hw with rfl | hw
    · exact fun i => h _ (List.get_mem xs _)
    · exact hwindows w hw
  | case2 xs hshort =>
    rw [windows_short (Nat.lt_of_not_le hshort)]
    exact ⟨fun w hw => absurd hw List.not_mem_nil, h⟩

/-- A map of the samples maps the windows and the rest. -/
theorem windows_map {β : Type*} (f : α → β) (xs : List α) :
    windows len hop (xs.map f) =
      ((windows len hop xs).1.map (f ∘ ·), (windows len hop xs).2.map f) := by
  induction xs using windows.induct len hop with
  | case1 xs h ih =>
    have hlen : len ≤ (xs.map f).length := by rwa [List.length_map]
    rw [windows_full hlen, windows_full h, ← List.map_drop, ih]
    refine Prod.ext (congrArg₂ List.cons ?_ rfl) rfl
    funext i
    simp
  | case2 xs h =>
    have hshort : (xs.map f).length < len := by
      rw [List.length_map]
      exact Nat.lt_of_not_le h
    rw [windows_short hshort, windows_short (Nat.lt_of_not_le h)]
    rfl

/-- Windows of a list that arrives in two pieces. -/
theorem windows_append (hhop : hop ≤ len) (xs ys : List α) :
    windows len hop (xs ++ ys) =
      ((windows len hop xs).1 ++ (windows len hop ((windows len hop xs).2 ++ ys)).1,
        (windows len hop ((windows len hop xs).2 ++ ys)).2) := by
  induction xs using windows.induct len hop with
  | case1 xs h ih =>
    have hlen : len ≤ (xs ++ ys).length := by
      rw [List.length_append]
      omega
    have hdrop : (xs ++ ys).drop hop = xs.drop hop ++ ys :=
      List.drop_append_of_le_length (hhop.trans h)
    rw [windows_full hlen, windows_full h, hdrop, ih]
    refine Prod.ext (congrArg₂ List.cons ?_ rfl) rfl
    funext i
    simp [List.getElem_append_left (Nat.lt_of_lt_of_le i.isLt h)]
  | case2 xs h => rw [windows_short (Nat.lt_of_not_le h), List.nil_append]

end Framing
