import Mathlib.Algebra.BigOperators.Intervals
import Mathlib.Algebra.BigOperators.Ring.Finset
import Mathlib.Algebra.CharZero.Defs
import Mathlib.Algebra.Order.Ring.Rat
import Mathlib.Tactic.LinearCombination
import Mathlib.Tactic.NormNum
import Mathlib.Tactic.Ring
import LARCmaCS.CMPattern.Pattern

/-!
# The configured fit weights

The list "Pattern Fitting" of a `Team`, and what `TeamDetector::init` makes of
it. The weight of the distance to the next marker is assigned twice, that of
the angle to it never, so the configured weights take effect on exactly those
markers on which the two mistakes cancel (`weightsTakeEffect_iff`).
-/

namespace LARCmaCS.CMPattern

open Finset (range)

variable {K : Type*} [Field K]

-- ---------------------------------------------------------------------------
-- Team and TeamDetector::init
-- ---------------------------------------------------------------------------

/-- The value of the child called `name`, which is added if there is none. -/
def findChildOrReplace (list : List (String × K)) (name : String) (value : K) : K :=
  (list.lookup name).getD value

structure Team (K : Type*) where
  pattern_max_dist : K
  pattern_fitness_weight_area : K
  pattern_fitness_weight_center_distance : K
  pattern_fitness_weight_next_distance : K
  pattern_fitness_weight_next_angle_distance : K
  pattern_fitness_max_error : K
  pattern_fitness_stddev : K
  pattern_fitness_uniform : K

def Team.new (pattern_fitness : List (String × K)) : Team K where
  pattern_max_dist := findChildOrReplace pattern_fitness "Max Marker Center Dist (mm)" 100
  pattern_fitness_weight_area := findChildOrReplace pattern_fitness "Weight Area" 0.1
  pattern_fitness_weight_center_distance :=
    findChildOrReplace pattern_fitness "Weight Center-Dist" 0.2
  pattern_fitness_weight_next_distance := findChildOrReplace pattern_fitness "Weight Next-Dist" 1
  pattern_fitness_weight_next_angle_distance :=
    findChildOrReplace pattern_fitness "Weight Next-Angle-Dist" 0.5
  pattern_fitness_max_error := findChildOrReplace pattern_fitness "Max Error" 1
  pattern_fitness_stddev := findChildOrReplace pattern_fitness "Expected StdDev" 0.5
  pattern_fitness_uniform := findChildOrReplace pattern_fitness "Uniform" 0.05

/-- The part of the detector that the list "Pattern Fitting" is read into. -/
structure TeamDetector (K : Type*) where
  pattern_max_dist : K
  pattern_fit_params : PatternFitParameters K

/-- The constructor leaves the distance as it finds it in memory. -/
def TeamDetector.new (pattern_max_dist : K) : TeamDetector K := ⟨pattern_max_dist, .reset⟩

def TeamDetector.init (detector : TeamDetector K) (team : Team K) : TeamDetector K :=
  let params := detector.pattern_fit_params
  let params := { params with fit_area_weight := team.pattern_fitness_weight_area }
  let params := { params with fit_cen_dist_weight := team.pattern_fitness_weight_center_distance }
  let params := { params with fit_next_dist_weight := team.pattern_fitness_weight_next_distance }
  -- The same field once more.
  let params :=
    { params with fit_next_dist_weight := team.pattern_fitness_weight_next_angle_distance }
  let params := { params with fit_max_error := team.pattern_fitness_max_error }
  let params := { params with fit_variance := sq team.pattern_fitness_stddev }
  let params := { params with fit_uniform := team.pattern_fitness_uniform }
  { pattern_max_dist := team.pattern_max_dist, pattern_fit_params := params }

def TeamDetector.initAll (pattern_max_dist : K) (earlier : List (Team K)) (team : Team K) :
    TeamDetector K :=
  (earlier.foldl TeamDetector.init (.new pattern_max_dist)).init team

-- ---------------------------------------------------------------------------
-- The configured error
-- ---------------------------------------------------------------------------

/-- What the configuration asks for. -/
def Team.fitError (team : Team K) (model markers : Nat → Marker K) (n ofs : Nat) : K :=
  1 / n * ∑ i ∈ range n,
    (team.pattern_fitness_weight_area *
        deviation (model i).area (markers ((i + ofs) % n)).area +
      team.pattern_fitness_weight_center_distance *
        deviation (model i).dist (markers ((i + ofs) % n)).dist +
      team.pattern_fitness_weight_next_distance *
        deviation (model i).next_dist (markers ((i + ofs) % n)).next_dist +
      team.pattern_fitness_weight_next_angle_distance *
        deviation (model i).next_angle_dist (markers ((i + ofs) % n)).next_angle_dist)

def nextDeviation (model markers : Nat → Marker K) (n ofs : Nat) : K :=
  ∑ i ∈ range n, deviation (model i).next_dist (markers ((i + ofs) % n)).next_dist

def angleDeviation (model markers : Nat → Marker K) (n ofs : Nat) : K :=
  ∑ i ∈ range n, deviation (model i).next_angle_dist (markers ((i + ofs) % n)).next_angle_dist

structure MeasuresNonzero (model : Nat → Marker K) (n : Nat) : Prop where
  area : ∀ i < n, (model i).area ≠ 0
  dist : ∀ i < n, (model i).dist ≠ 0
  next_dist : ∀ i < n, (model i).next_dist ≠ 0
  next_angle_dist : ∀ i < n, (model i).next_angle_dist ≠ 0

theorem fit_next_angle_dist_weight_initAll (dist : K) (earlier : List (Team K)) (team : Team K) :
    (TeamDetector.initAll dist earlier team).pattern_fit_params.fit_next_angle_dist_weight =
      1 := by
  have hfoldl (detector : TeamDetector K) :
      (earlier.foldl TeamDetector.init
        detector).pattern_fit_params.fit_next_angle_dist_weight =
      detector.pattern_fit_params.fit_next_angle_dist_weight := by
    induction earlier generalizing detector with
    | nil => rfl
    | cons team earlier ih => exact ih (detector.init team)
  exact hfoldl (.new dist)

theorem foldl_add_eq_sum (f : Nat → K) (n : Nat) :
    (List.range n).foldl (fun sse i => sse + f i) 0 = ∑ i ∈ range n, f i := by
  induction n with
  | zero => rfl
  | succ n ih =>
    rw [List.range_succ, List.foldl_append, List.foldl_cons, List.foldl_nil, ih,
      Finset.sum_range_succ]

theorem calcFitError_sub_fitError (dist : K) (earlier : List (Team K)) (team : Team K)
    (model markers : Nat → Marker K) (n ofs : Nat) :
    calcFitError model markers n ofs (TeamDetector.initAll dist earlier team).pattern_fit_params -
        team.fitError model markers n ofs =
      ((team.pattern_fitness_weight_next_angle_distance -
            team.pattern_fitness_weight_next_distance) * nextDeviation model markers n ofs +
        (1 - team.pattern_fitness_weight_next_angle_distance) *
          angleDeviation model markers n ofs) / n := by
  have hangle := fit_next_angle_dist_weight_initAll dist earlier team
  rw [calcFitError, foldl_add_eq_sum, Team.fitError, nextDeviation, angleDeviation, hangle]
  simp only [TeamDetector.initAll, TeamDetector.init, Finset.sum_add_distrib, ← Finset.mul_sum]
  ring

def WeightsTakeEffect (dist : K) (earlier : List (Team K)) (team : Team K)
    (model markers : Nat → Marker K) (n ofs : Nat) : Prop :=
  calcFitError model markers n ofs (TeamDetector.initAll dist earlier team).pattern_fit_params =
    team.fitError model markers n ofs

theorem weightsTakeEffect_iff_balance [CharZero K] (dist : K) (earlier : List (Team K))
    (team : Team K) (model markers : Nat → Marker K) {n : Nat} (hn : 1 ≤ n) (ofs : Nat) :
    WeightsTakeEffect dist earlier team model markers n ofs ↔
      (team.pattern_fitness_weight_next_distance -
            team.pattern_fitness_weight_next_angle_distance) * nextDeviation model markers n ofs =
        (1 - team.pattern_fitness_weight_next_angle_distance) *
          angleDeviation model markers n ofs := by
  have hzero : (n : K) ≠ 0 := Nat.cast_ne_zero.mpr (by omega)
  rw [WeightsTakeEffect, ← sub_eq_zero, calcFitError_sub_fitError, div_eq_zero_iff,
    or_iff_left hzero]
  constructor
  · intro h
    linear_combination -h
  · intro h
    linear_combination -h

def unitMarker (next_dist next_angle_dist : K) : Marker K where
  area := 1
  id := 0
  reg := none
  loc := .zero
  height := 0
  conf := 1
  dist := 1
  angle := 0
  next_angle_dist := next_angle_dist
  next_dist := next_dist
  next := none

theorem measuresNonzero_unitMarker (n : Nat) :
    MeasuresNonzero (fun _ => unitMarker (1 : K) 1) n :=
  ⟨fun _ _ => one_ne_zero, fun _ _ => one_ne_zero, fun _ _ => one_ne_zero, fun _ _ => one_ne_zero⟩

/-- On given markers the configured weights take effect exactly if the two
mistakes cancel; on all of them, if both weights are 1. -/
theorem weightsTakeEffect_iff [CharZero K] (dist : K) (earlier : List (Team K)) (team : Team K) :
    (∀ (model markers : Nat → Marker K) (n ofs : Nat), 1 ≤ n →
      (WeightsTakeEffect dist earlier team model markers n ofs ↔
        (team.pattern_fitness_weight_next_distance -
              team.pattern_fitness_weight_next_angle_distance) *
            nextDeviation model markers n ofs =
          (1 - team.pattern_fitness_weight_next_angle_distance) *
            angleDeviation model markers n ofs)) ∧
    ((∀ (model markers : Nat → Marker K) (n ofs : Nat), 1 ≤ n → MeasuresNonzero model n →
        WeightsTakeEffect dist earlier team model markers n ofs) ↔
      team.pattern_fitness_weight_next_distance = 1 ∧
        team.pattern_fitness_weight_next_angle_distance = 1) := by
  refine ⟨fun model markers n ofs hn => weightsTakeEffect_iff_balance dist earlier team model
    markers hn ofs, fun h => ?_, fun ⟨hnext, hangle⟩ model markers n ofs hn _ => ?_⟩
  · have hmeasures := measuresNonzero_unitMarker (K := K) 1
    have hangle := (weightsTakeEffect_iff_balance dist earlier team _ _ (Nat.le_refl 1) 0).mp
      (h (fun _ => unitMarker 1 1) (fun _ => unitMarker 1 0) 1 0 (Nat.le_refl 1) hmeasures)
    have hnext := (weightsTakeEffect_iff_balance dist earlier team _ _ (Nat.le_refl 1) 0).mp
      (h (fun _ => unitMarker 1 1) (fun _ => unitMarker 0 1) 1 0 (Nat.le_refl 1) hmeasures)
    have hdiff : sq ((1 - 0 : K) / 1) = 1 := by simp [sq]
    have hsame : sq ((1 - 1 : K) / 1) = 0 := by simp [sq]
    simp only [nextDeviation, angleDeviation, Finset.sum_range_one, deviation, unitMarker, hdiff,
      hsame] at hangle hnext
    have hangle : team.pattern_fitness_weight_next_angle_distance = 1 := by
      linear_combination hangle
    exact ⟨by linear_combination hnext + hangle, hangle⟩
  · rw [weightsTakeEffect_iff_balance dist earlier team model markers hn, hnext, hangle]
    ring

theorem weightsTakeEffect_iff_angle_one :
    WeightsTakeEffect (0 : Rat) [] (.new [("Weight Next-Angle-Dist", 1)])
      (fun _ => unitMarker 1 1) (fun _ => unitMarker 0 0) 1 0 :=
  (weightsTakeEffect_iff 0 [] _).2.mpr ⟨rfl, rfl⟩ _ _ 1 0 (Nat.le_refl 1)
    (measuresNonzero_unitMarker 1)

theorem not_weightsTakeEffect_default :
    ¬WeightsTakeEffect (0 : Rat) [] (.new []) (fun _ => unitMarker 1 1) (fun _ => unitMarker 0 1)
      1 0 := by
  rw [weightsTakeEffect_iff_balance 0 [] _ _ _ (Nat.le_refl 1)]
  simp only [nextDeviation, angleDeviation, Finset.sum_range_one, deviation, unitMarker, sq,
    Team.new, findChildOrReplace, List.lookup_nil, Option.getD_none]
  norm_num

end LARCmaCS.CMPattern
