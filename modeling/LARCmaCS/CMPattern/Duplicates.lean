import Mathlib.Data.List.Induction
import Mathlib.Algebra.Order.Ring.Int
import Mathlib.Logic.Function.Iterate
import LARCmaCS.CMPattern.TeamDetector

/-!
# Duplicate removal

The pair loop rejects the robot that comes first of two close ones, which is
the one with the higher confidence. What is left is far apart in any case; that
a rejected robot had a neighbour at least as confident holds exactly if no
strict peak of confidence has a neighbour (`keepsBetter_iff`).
-/

namespace LARCmaCS.CMPattern

variable {K : Type*} [CommRing K] [LinearOrder K]

-- ---------------------------------------------------------------------------
-- The pair loop
-- ---------------------------------------------------------------------------

def closeAt (duplicateDistance : K) (robots : List (DetectionRobot K)) (i j : Nat) : Bool :=
  match robots[i]?, robots[j]? with
  | some a, some b => sqdist a b < sq duplicateDistance
  | _, _ => false

def rejectAt (p : Nat → Bool) (robots : List (DetectionRobot K)) : List (DetectionRobot K) :=
  robots.mapIdx fun k r => if p k then r.reject else r

omit [LinearOrder K] in
theorem getElem?_rejectAt (p : Nat → Bool) (robots : List (DetectionRobot K)) (k : Nat) :
    (rejectAt p robots)[k]? = (robots[k]?).map fun r => if p k then r.reject else r :=
  List.getElem?_mapIdx

omit [LinearOrder K] in
theorem sqdist_ite_reject (p q : Bool) (a b : DetectionRobot K) :
    sqdist (if p then a.reject else a) (if q then b.reject else b) = sqdist a b := by
  cases p <;> cases q <;> rfl

omit [LinearOrder K] in
theorem modify_rejectAt (p : Nat → Bool) (robots : List (DetectionRobot K)) (i : Nat) :
    (rejectAt p robots).modify i DetectionRobot.reject =
      rejectAt (fun k => p k || k == i) robots := by
  apply List.ext_getElem?
  intro k
  rw [List.getElem?_modify, getElem?_rejectAt, getElem?_rejectAt]
  cases robots[k]? with
  | none => rfl
  | some r =>
    by_cases hk : i = k
    · subst hk
      cases p i <;> simp [DetectionRobot.reject]
    · have hne : (k == i) = false := by simpa using Ne.symm hk
      simp [hk, hne]

theorem filterPair_rejectAt (d : K) (i : Nat) (p : Nat → Bool) (robots : List (DetectionRobot K))
    (j : Nat) :
    filterPair d i (rejectAt p robots) j =
      rejectAt (fun k => p k || (k == i && closeAt d robots i j)) robots := by
  have hcases : filterPair d i (rejectAt p robots) j =
      if closeAt d robots i j then (rejectAt p robots).modify i DetectionRobot.reject
      else rejectAt p robots := by
    rw [filterPair, getElem?_rejectAt, getElem?_rejectAt, closeAt]
    cases robots[i]? with
    | none => simp
    | some a =>
      cases robots[j]? with
      | none => simp
      | some b => simp [sqdist_ite_reject]
  rw [hcases]
  cases closeAt d robots i j with
  | true => simpa using modify_rejectAt p robots i
  | false => simp

theorem foldl_filterPair (d : K) (i : Nat) (robots : List (DetectionRobot K)) (js : List Nat)
    (p : Nat → Bool) :
    js.foldl (filterPair d i) (rejectAt p robots) =
      rejectAt (fun k => p k || (k == i && js.any (closeAt d robots i))) robots := by
  induction js generalizing p with
  | nil => simp
  | cons j js ih =>
    rw [List.foldl_cons, filterPair_rejectAt, ih]
    congr 1
    funext k
    rw [List.any_cons]
    cases p k <;> cases k == i <;> simp

def rejected (d : K) (robots : List (DetectionRobot K)) (k : Nat) : Bool :=
  (List.range' (k + 1) (robots.length - (k + 1))).any (closeAt d robots k)

theorem filterDuplicates_eq (d : K) (robots : List (DetectionRobot K)) :
    filterDuplicates d robots = rejectAt (rejected d robots) robots := by
  have hfoldl (is : List Nat) (p : Nat → Bool) :
      is.foldl (fun robots' i => (List.range' (i + 1) (robots.length - (i + 1))).foldl
        (filterPair d i) robots') (rejectAt p robots) =
      rejectAt (fun k => p k || is.any fun i => k == i && rejected d robots i) robots := by
    induction is generalizing p with
    | nil => simp
    | cons i is ih =>
      rw [List.foldl_cons, foldl_filterPair, ih]
      congr 1
      funext k
      rw [List.any_cons, ← Bool.or_assoc]
      rfl
  have hnone : rejectAt (fun _ => false) robots = robots := by
    apply List.ext_getElem?
    intro k
    rw [getElem?_rejectAt]
    exact Option.map_id'
  have hall := hfoldl (List.range robots.length) fun _ => false
  rw [hnone] at hall
  rw [filterDuplicates]
  refine hall.trans ?_
  apply List.ext_getElem?
  intro k
  rw [getElem?_rejectAt, getElem?_rejectAt]
  cases hk : robots[k]? with
  | none => rfl
  | some r =>
    have hlt := (List.getElem?_eq_some_iff.mp hk).1
    have hmember : (false || (List.range robots.length).any fun i => k == i && rejected d robots i) =
        rejected d robots k := by
      rw [Bool.eq_iff_iff]
      simp only [Bool.false_or, List.any_eq_true, List.mem_range, Bool.and_eq_true, beq_iff_eq]
      constructor
      · rintro ⟨_, -, rfl, h⟩
        exact h
      · intro h
        exact ⟨k, hlt, rfl, h⟩
    rw [hmember]

theorem rejected_iff {d : K} {robots : List (DetectionRobot K)} {k : Nat} {r : DetectionRobot K}
    (hk : robots[k]? = some r) :
    rejected d robots k = true ↔
      ∃ j r', k < j ∧ robots[j]? = some r' ∧ sqdist r r' < sq d := by
  simp only [rejected, List.any_eq_true, List.mem_range'_1, closeAt, hk]
  constructor
  · rintro ⟨j, ⟨hj, -⟩, hclose⟩
    cases hr : robots[j]? with
    | none => simp [hr] at hclose
    | some r' => exact ⟨j, r', by omega, hr, by simpa [hr] using hclose⟩
  · rintro ⟨j, r', hj, hr, hclose⟩
    have hlt := (List.getElem?_eq_some_iff.mp hr).1
    exact ⟨j, ⟨by omega, by omega⟩, by simpa [hr] using hclose⟩

-- ---------------------------------------------------------------------------
-- stripRobots
-- ---------------------------------------------------------------------------

theorem stripRobots_eq_filter (robots : List (DetectionRobot K)) :
    stripRobots robots = robots.filter (·.confidence ≠ 0) := by
  have hpass : stripPass (K := K) = InPlace.compactPass (fun r => r.confidence ≠ 0) := by
    funext s src
    rw [stripPass, InPlace.compactPass]
    cases s.1[src]? <;> rfl
  rw [← InPlace.compact_eq_filter, stripRobots, InPlace.compact, hpass]

-- ---------------------------------------------------------------------------
-- What is kept
-- ---------------------------------------------------------------------------

/-- All detections by confidence, earlier ones first among equals. -/
abbrev ranked (robotHeight : K) (ds : List (Detection K)) : List (DetectionRobot K) :=
  Ranking.ranking DetectionRobot.confidence (ds.map (·.robot robotHeight))

/-- The robots left are apart, and a rejected robot of non-zero confidence had
another detection within the distance that is at least as confident. -/
structure KeepsBetter (maxRobots : Int) (robotHeight duplicateDistance : K)
    (ds : List (Detection K)) : Prop where
  apart : (stripRobots (filterDuplicates duplicateDistance
    (addDetections maxRobots robotHeight ds))).Pairwise fun a b =>
      sq duplicateDistance ≤ sqdist a b
  better : ∀ (i : Nat) r, (addDetections maxRobots robotHeight ds)[i]? = some r →
    r.confidence ≠ 0 →
    (filterDuplicates duplicateDistance (addDetections maxRobots robotHeight ds))[i]? =
      some r.reject →
    ∃ (j : Nat) (r' : DetectionRobot K), j ≠ i ∧ (ranked robotHeight ds)[j]? = some r' ∧
      sqdist r r' < sq duplicateDistance ∧ r.confidence ≤ r'.confidence

/-- Of the best `2 * maxRobots` detections, none of non-zero confidence that has
another of them within the distance is more confident than all detections
within the distance. -/
def NoSharpPeak (maxRobots : Int) (robotHeight duplicateDistance : K) (ds : List (Detection K)) :
    Prop :=
  ∀ (i j : Nat) r r', i < (maxRobots * 2).toNat → j < (maxRobots * 2).toNat → j ≠ i →
    (ranked robotHeight ds)[i]? = some r → (ranked robotHeight ds)[j]? = some r' →
    r.confidence ≠ 0 → sqdist r r' < sq duplicateDistance →
    ∃ (j : Nat) (r' : DetectionRobot K), j ≠ i ∧ (ranked robotHeight ds)[j]? = some r' ∧
      sqdist r r' < sq duplicateDistance ∧ r.confidence ≤ r'.confidence

theorem apart_stripRobots (d : K) (robots : List (DetectionRobot K)) :
    (stripRobots (filterDuplicates d robots)).Pairwise fun a b => sq d ≤ sqdist a b := by
  rw [stripRobots_eq_filter, filterDuplicates_eq, List.pairwise_filter, List.pairwise_iff_getElem]
  intro i j hi hj hij hkept _
  have hkept := of_decide_eq_true hkept
  have hi' : i < robots.length := by simpa [rejectAt] using hi
  have hj' : j < robots.length := by simpa [rejectAt] using hj
  simp only [rejectAt, List.getElem_mapIdx] at hkept ⊢
  rw [sqdist_ite_reject]
  by_contra hclose
  have hrejected : rejected d robots i = true :=
    (rejected_iff (List.getElem?_eq_getElem hi')).mpr
      ⟨j, robots[j], hij, List.getElem?_eq_getElem hj', not_le.mp hclose⟩
  rw [if_pos hrejected] at hkept
  exact hkept rfl

theorem findRobotsByTeamMarkerOnly_spec {maxRobots : Int} {robotHeight d : K}
    {ds : List (Detection K)} {robots : List (DetectionRobot K)}
    (h : findRobotsByTeamMarkerOnly maxRobots robotHeight d ds = some robots) :
    robots.Pairwise (fun a b => sq d ≤ sqdist a b) ∧ (robots.length : Int) ≤ maxRobots := by
  rw [findRobotsByTeamMarkerOnly, removeExtra] at h
  split at h
  · rename_i hmax
    obtain rfl := Option.some.inj h
    rw [InPlace.iterate_dropLast]
    refine ⟨(apart_stripRobots d _).sublist (List.take_sublist _ _), ?_⟩
    rw [List.length_take]
    omega
  · cases h

theorem better_iff (maxRobots : Int) (robotHeight d : K) (ds : List (Detection K)) {i : Nat}
    {r : DetectionRobot K} (hi : (addDetections maxRobots robotHeight ds)[i]? = some r)
    (hr : r.confidence ≠ 0) :
    (filterDuplicates d (addDetections maxRobots robotHeight ds))[i]? = some r.reject ↔
      ∃ (j : Nat) (r' : DetectionRobot K), i < j ∧
        (addDetections maxRobots robotHeight ds)[j]? = some r' ∧ sqdist r r' < sq d := by
  rw [← rejected_iff hi, filterDuplicates_eq, getElem?_rejectAt, hi]
  cases rejected d (addDetections maxRobots robotHeight ds) i with
  | true => simp
  | false =>
    have hne : r ≠ r.reject := fun h => hr (congrArg DetectionRobot.confidence h)
    simpa using hne

theorem getElem?_addDetections (maxRobots : Int) (robotHeight : K) (ds : List (Detection K))
    {i : Nat} {r : DetectionRobot K} :
    (addDetections maxRobots robotHeight ds)[i]? = some r ↔
      i < (maxRobots * 2).toNat ∧ (ranked robotHeight ds)[i]? = some r := by
  rw [robots_eq_ranking, List.getElem?_take]
  split
  · rename_i hi
    exact ⟨fun h => ⟨hi, h⟩, fun h => h.2⟩
  · rename_i hi
    exact ⟨fun h => (Option.some_ne_none r h.symm).elim, fun h => absurd h.1 hi⟩

/-- Duplicate removal keeps the better detection exactly if no sharp peak of
confidence has a neighbour. -/
theorem keepsBetter_iff (maxRobots : Int) (robotHeight duplicateDistance : K)
    (ds : List (Detection K)) :
    KeepsBetter maxRobots robotHeight duplicateDistance ds ↔
      NoSharpPeak maxRobots robotHeight duplicateDistance ds := by
  have hranked : Ranking.Descending DetectionRobot.confidence (ranked robotHeight ds) :=
    Ranking.descending_ranking _
  constructor
  · intro h i j r r' hi hj hne hr hr' hzero hclose
    rcases Nat.lt_or_gt_of_ne hne with hlt | hgt
    · exact ⟨j, r', hne, hr', hclose, hranked.key_le hlt hr' hr⟩
    · -- The pair loop rejects the earlier robot of the pair.
      have hi' := (getElem?_addDetections maxRobots robotHeight ds).mpr ⟨hi, hr⟩
      have hj' := (getElem?_addDetections maxRobots robotHeight ds).mpr ⟨hj, hr'⟩
      exact h.better i r hi' hzero
        ((better_iff maxRobots robotHeight _ ds hi' hzero).mpr ⟨j, r', hgt, hj', hclose⟩)
  · intro h
    refine ⟨apart_stripRobots _ _, fun i r hi hzero hrejected => ?_⟩
    obtain ⟨j, r', hij, hj, hclose⟩ :=
      (better_iff maxRobots robotHeight _ ds hi hzero).mp hrejected
    obtain ⟨hi, hr⟩ := (getElem?_addDetections maxRobots robotHeight ds).mp hi
    obtain ⟨hj, hr'⟩ := (getElem?_addDetections maxRobots robotHeight ds).mp hj
    exact h i j r r' hi hj (by omega) hr hr' hzero hclose

/-- Two markers at one place: the more confident one is rejected. -/
theorem not_keepsBetter_two_markers :
    ¬KeepsBetter 1 (0 : Int) 1 [⟨2, 0, 0, 0, 0⟩, ⟨1, 0, 0, 0, 0⟩] := by
  intro h
  obtain ⟨j, r', hne, hr', -, hle⟩ := h.better 0 ⟨2, 0, 0, 0, 0, 0, none, none⟩ rfl (by decide) rfl
  match j, hr' with
  | 1, hr' =>
    obtain rfl := Option.some.inj hr'
    exact absurd hle (by decide)
  | j + 2, hr' => cases hr'

end LARCmaCS.CMPattern
