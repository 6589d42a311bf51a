import Mathlib.Data.List.Induction

/-!
# What several observers report about one object

A stream of reports, each from one observer, each saying what that observer
saw of the object or that it saw nothing. The latest sighting is kept; it
counts as withdrawn once the observer who made it reports again without
seeing the object. Other observers cannot withdraw it.
-/

namespace Sighting

/-- The latest sighting of an object and whether it still stands. -/
structure View (Observer Obs : Type*) where
  observer : Observer
  obs : Obs
  present : Bool
  deriving DecidableEq

variable {Observer Obs : Type*} [DecidableEq Observer]

def View.report (v : View Observer Obs) (observer : Observer) : View Observer Obs :=
  if v.observer = observer then { v with present := false } else v

def step (v : Option (View Observer Obs)) : Observer × Option Obs → Option (View Observer Obs)
  | (observer, some obs) => some ⟨observer, obs, true⟩
  | (observer, none) => v.map (·.report observer)

def view (reports : List (Observer × Option Obs)) : Option (View Observer Obs) :=
  reports.foldl step none

theorem view_append_singleton (reports : List (Observer × Option Obs)) (r : Observer × Option Obs) :
    view (reports ++ [r]) = step (view reports) r := by
  simp [view]

theorem view_eq_none {reports : List (Observer × Option Obs)} (h : ∀ r ∈ reports, r.2 = none) :
    view reports = none := by
  induction reports using List.reverseRecOn with
  | nil => rfl
  | append_singleton reports r ih =>
    obtain ⟨observer, obs⟩ := r
    obtain rfl : obs = none := h (observer, obs) (by simp)
    rw [view_append_singleton, ih fun r hr => h r (by simp [hr])]
    rfl

/-- The latest sighting stands exactly as long as its observer has not
reported again. -/
theorem view_latest (earlier later : List (Observer × Option Obs)) (observer : Observer) (obs : Obs)
    (h : ∀ r ∈ later, r.2 = none) :
    view (earlier ++ (observer, some obs) :: later) =
      some ⟨observer, obs, decide (∀ r ∈ later, r.1 ≠ observer)⟩ := by
  induction later using List.reverseRecOn with
  | nil => simp [view, step]
  | append_singleton later r ih =>
    obtain ⟨other, seen⟩ := r
    obtain rfl : seen = none := h (other, seen) (by simp)
    have hassoc : earlier ++ (observer, some obs) :: (later ++ [(other, none)]) =
        (earlier ++ (observer, some obs) :: later) ++ [(other, none)] := by simp
    rw [hassoc, view_append_singleton, ih fun r hr => h r (by simp [hr])]
    by_cases ho : observer = other
    · simp [step, View.report, ho]
    · simp [step, View.report, ho, or_imp, forall_and, Ne.symm ho]

end Sighting
