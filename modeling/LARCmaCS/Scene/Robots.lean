import LARCmaCS.Lib.Roster
import LARCmaCS.Scene.FieldScene

/-!
# Scene robots follow the frame

The loop over both teams with its two cursors lays each team's detections over
the robots tracked for that camera and team (`robots_placeRobots`), so that
after a frame the scene's robots are those of the frame (`updateRobots_follows`).
-/

namespace LARCmaCS.FieldScene

open Roster (Rules)

-- ---------------------------------------------------------------------------
-- The loop
-- ---------------------------------------------------------------------------

theorem tracks_congr {cameraId : BitVec 32} {side : Side} {r r' : Robot} (hkey : r'.key = r.key)
    (hteam : r'.teamID = r.teamID) : tracks cameraId side r' = tracks cameraId side r := by
  rw [tracks, tracks, hkey, hteam]

def rules (cameraId : BitVec 32) (side : Side) : Rules Robot SSLDetectionRobot where
  sel := tracks cameraId side
  pose := poseRobot
  hide r := { r with conf := 0 }
  enlist := newRobot cameraId side
  sel_pose robot r := tracks_congr (key_poseRobot robot r) (teamID_poseRobot robot r)
  sel_hide _ := rfl
  sel_enlist n robot := by simp [tracks, newRobot, Robot.new]

theorem disjoint_rules (cameraId : BitVec 32) :
    (rules cameraId .yellow).Disjoint (rules cameraId .blue) := by
  intro r hr
  have hteam : r.teamID = teamYellow := (of_decide_eq_true hr).2
  exact decide_eq_false fun h => by
    have := h.2.symm.trans hteam
    cases this

def RobotLoop.cursor (s : RobotLoop) : Side → Nat
  | .blue => s.bluej
  | .yellow => s.yellowj

def RobotLoop.view (s : RobotLoop) (side : Side) : Roster.Loop Robot :=
  ⟨s.scene.robots, s.scene.robotsMade, s.cursor side⟩

theorem RobotLoop.view_pass (cameraId : BitVec 32) (s : RobotLoop) (side : Side)
    (robot : SSLDetectionRobot) :
    (s.pass cameraId (side, robot)).view side = (rules cameraId side).visit (s.view side) robot := by
  cases side with
  | blue =>
    by_cases hend : s.bluej + (s.scene.robots.drop s.bluej).findIdx (tracks cameraId .blue) + 1 >
        s.scene.robots.length
    · rw [Rules.visit_of_end (R := rules cameraId .blue) (s := s.view .blue) hend]
      simp only [pass, if_pos hend]
      rfl
    · rw [Rules.visit_of_within (R := rules cameraId .blue) (s := s.view .blue) hend]
      simp only [pass, if_neg hend]
      rfl
  | yellow =>
    by_cases hend : s.yellowj + (s.scene.robots.drop s.yellowj).findIdx (tracks cameraId .yellow) + 1 >
        s.scene.robots.length
    · rw [Rules.visit_of_end (R := rules cameraId .yellow) (s := s.view .yellow) hend]
      simp only [pass, if_pos hend]
      rfl
    · rw [Rules.visit_of_within (R := rules cameraId .yellow) (s := s.view .yellow) hend]
      simp only [pass, if_neg hend]
      rfl

theorem RobotLoop.view_foldl (cameraId : BitVec 32) (s : RobotLoop) (side : Side)
    (robots : List SSLDetectionRobot) :
    ((robots.map (Prod.mk side)).foldl (pass cameraId) s).view side =
      robots.foldl (rules cameraId side).visit (s.view side) := by
  induction robots generalizing s with
  | nil => rfl
  | cons robot robots ih => rw [List.map_cons, List.foldl_cons, List.foldl_cons, ih, view_pass]

theorem RobotLoop.bluej_foldl_yellow (cameraId : BitVec 32) (s : RobotLoop)
    (robots : List SSLDetectionRobot) :
    ((robots.map (Prod.mk Side.yellow)).foldl (pass cameraId) s).bluej = s.bluej := by
  induction robots generalizing s with
  | nil => rfl
  | cons robot robots ih => exact ih _

theorem RobotLoop.yellowj_foldl_blue (cameraId : BitVec 32) (s : RobotLoop)
    (robots : List SSLDetectionRobot) :
    ((robots.map (Prod.mk Side.blue)).foldl (pass cameraId) s).yellowj = s.yellowj := by
  induction robots generalizing s with
  | nil => rfl
  | cons robot robots ih => exact ih _

theorem RobotLoop.hideFrom_foldl (cameraId : BitVec 32) (s : RobotLoop) (side : Side)
    (robots : List SSLDetectionRobot) (h : s.cursor side = 0) :
    (rules cameraId side).hideFrom
        (((robots.map (Prod.mk side)).foldl (pass cameraId) s).cursor side)
        ((robots.map (Prod.mk side)).foldl (pass cameraId) s).scene.robots =
      (rules cameraId side).follow s.scene.robotsMade s.scene.robots robots := by
  have hview := view_foldl cameraId s side robots
  have hcursor := congrArg Roster.Loop.cursor hview
  have hroster := congrArg Roster.Loop.roster hview
  dsimp only [view] at hcursor hroster
  rw [hcursor, hroster, h]
  exact Rules.hideFrom_foldl_visit [] s.scene.robots s.scene.robotsMade robots

/-- The scene's robots follow the blue list, then the yellow one, though the
hide loop of the blue ones runs last. -/
theorem robots_placeRobots (scene : FieldScene) (detection : SSLDetectionFrame) :
    ∃ made, (scene.placeRobots detection).robots =
      (rules detection.cameraId .yellow).follow made
        ((rules detection.cameraId .blue).follow scene.robotsMade scene.robots detection.robotsBlue)
        detection.robotsYellow := by
  let c := detection.cameraId
  let s := (detection.robotsBlue.map (Prod.mk Side.blue)).foldl (RobotLoop.pass c) ⟨scene, 0, 0⟩
  let t := (detection.robotsYellow.map (Prod.mk Side.yellow)).foldl (RobotLoop.pass c) s
  have hblue : (rules c .blue).hideFrom s.bluej s.scene.robots =
      (rules c .blue).follow scene.robotsMade scene.robots detection.robotsBlue :=
    RobotLoop.hideFrom_foldl c ⟨scene, 0, 0⟩ .blue detection.robotsBlue rfl
  have hyellow : (rules c .yellow).hideFrom t.yellowj t.scene.robots =
      (rules c .yellow).follow s.scene.robotsMade s.scene.robots detection.robotsYellow :=
    RobotLoop.hideFrom_foldl c s .yellow detection.robotsYellow
      (RobotLoop.yellowj_foldl_blue c _ _)
  have hbluej : t.bluej = s.bluej := RobotLoop.bluej_foldl_yellow c s detection.robotsYellow
  have hdisjoint := disjoint_rules c
  refine ⟨s.scene.robotsMade, ?_⟩
  calc (scene.placeRobots detection).robots
      = (rules c .yellow).hideFrom t.yellowj ((rules c .blue).hideFrom t.bluej t.scene.robots) := by
        rw [placeRobots, List.foldl_append]
        rfl
    _ = (rules c .blue).hideFrom s.bluej ((rules c .yellow).hideFrom t.yellowj t.scene.robots) := by
        rw [Rules.hideFrom_comm hdisjoint, hbluej]
    _ = (rules c .yellow).follow s.scene.robotsMade
          ((rules c .blue).hideFrom s.bluej s.scene.robots) detection.robotsYellow := by
        rw [hyellow, Rules.follow_hideFrom hdisjoint]
    _ = _ := by rw [hblue]

-- ---------------------------------------------------------------------------
-- Labels
-- ---------------------------------------------------------------------------

theorem toUpper_of_isDigit {c : Char} (h : c.isDigit = true) : c.toUpper = c := by
  have hle : c.val.toNat ≤ 57 := by
    simp only [Char.isDigit, Bool.and_eq_true, decide_eq_true_eq, ge_iff_le] at h
    exact h.2
  refine dif_neg ?_
  rintro ⟨ha, -⟩
  have hge : 97 ≤ c.val.toNat := ha
  omega

theorem toUpper_toString (n : Nat) : (toString n).toUpper = toString n := by
  apply String.toList_injective
  have hdigits : (toString n).toList = Nat.toDigits 10 n := Nat.toList_repr
  rw [String.toUpper, String.toList_map, hdigits]
  refine (List.map_congr_left fun c hc => ?_).trans (List.map_id _)
  exact toUpper_of_isDigit (Nat.isDigit_of_mem_toDigits (by decide) (by decide) hc)

theorem robotLabel_NA : robotLabel NA = "?" := by
  apply String.toList_injective
  rw [robotLabel, if_neg (by decide), String.toUpper, String.toList_map]
  rfl

theorem robotLabel_of_ne {n : Nat} (h : (n : Int) ≠ NA) : robotLabel n = toString (n + 1) := by
  rw [robotLabel, if_pos h]
  exact toUpper_toString (n + 1)

-- ---------------------------------------------------------------------------
-- What a frame leaves
-- ---------------------------------------------------------------------------

structure Shows (r : Robot) (robot : SSLDetectionRobot) : Prop where
  x : r.x = robot.x.scale (1 / 10)
  y : r.y = robot.y.scale (1 / 10)
  orientation : r.orientation = robotOrientation robot
  conf : r.conf = robot.confidence
  label : r.robotLabel =
    match robot.robotId? with
    | some id => toString (id.toNat + 1)
    | none => "?"

/-- The robots `robots'` show the frame: the old robots `robots` come first
and those the frame does not speak of are unchanged; each team's robots show
its detections, one by one, and the others of them are hidden. -/
structure Follows (detection : SSLDetectionFrame) (robots robots' : List Robot) : Prop where
  extended : robots.map Robot.item <+: robots'.map Robot.item
  unchanged : ∀ (i : Nat) r, robots[i]? = some r →
    (∀ side, tracks detection.cameraId side r = false) → robots'[i]? = some r
  added : ∀ (i : Nat) r, robots.length ≤ i → robots'[i]? = some r →
    ∃ side, tracks detection.cameraId side r = true
  count : ∀ side, (robots'.filter (tracks detection.cameraId side)).length =
    max (robots.filter (tracks detection.cameraId side)).length (detection.robots side).length
  shown : ∀ side (k : Nat) robot, (detection.robots side)[k]? = some robot →
    ∃ r, (robots'.filter (tracks detection.cameraId side))[k]? = some r ∧ Shows r robot
  hidden : ∀ side (k : Nat) r, (detection.robots side).length ≤ k →
    (robots.filter (tracks detection.cameraId side))[k]? = some r →
    (robots'.filter (tracks detection.cameraId side))[k]? = some { r with conf := 0 }

/-- Robot ids are below the number that stands for an absent one. -/
def IdsBelowNA (detection : SSLDetectionFrame) : Prop :=
  ∀ side, ∀ robot ∈ detection.robots side, ∀ id, robot.robotId? = some id → id.toNat < 65535

theorem robotLabel_robotId {robot : SSLDetectionRobot}
    (h : ∀ id, robot.robotId? = some id → id.toNat < 65535) :
    robotLabel (robotId robot) =
      match robot.robotId? with
      | some id => toString (id.toNat + 1)
      | none => "?" := by
  rw [robotId]
  cases hid : robot.robotId? with
  | none => exact robotLabel_NA
  | some id =>
    have hlt := h id hid
    have hsigned : id.toInt = (id.toNat : Int) := BitVec.toInt_eq_toNat_of_lt (by omega)
    dsimp only
    rw [hsigned]
    exact robotLabel_of_ne (by rw [NA]; omega)

theorem shows_poseRobot {robot : SSLDetectionRobot}
    (h : ∀ id, robot.robotId? = some id → id.toNat < 65535) (r : Robot) :
    Shows (poseRobot robot r) robot := by
  have hlabel := robotLabel_robotId h
  unfold poseRobot
  dsimp only
  split
  · exact ⟨rfl, congrArg (Double.scale (1 / 10)) (Double.neg_neg robot.y), rfl, rfl, hlabel⟩
  · rename_i hsame
    exact ⟨rfl, congrArg (Double.scale (1 / 10)) (Double.neg_neg robot.y), rfl, rfl,
      (not_not.mp hsame).symm.trans hlabel⟩

section

variable {c : BitVec 32} {side : Side} {robots : List Robot} {ds : List SSLDetectionRobot}

theorem length_newcomers (made : Nat) (ds : List SSLDetectionRobot) :
    ((rules c side).newcomers made ds).length = ds.length := by
  induction ds generalizing made with
  | nil => rfl
  | cons d ds ih => rw [Rules.newcomers, List.length_cons, ih, List.length_cons]

theorem newcomers_show (made : Nat) {k : Nat} {robot : SSLDetectionRobot}
    (hids : ∀ id, robot.robotId? = some id → id.toNat < 65535) (hk : ds[k]? = some robot) :
    ∃ r, ((rules c side).newcomers made ds)[k]? = some r ∧ Shows r robot := by
  induction ds generalizing made k with
  | nil => cases hk
  | cons d ds ih =>
    cases k with
    | zero =>
      obtain rfl : d = robot := Option.some.inj hk
      exact ⟨_, rfl, shows_poseRobot hids _⟩
    | succ k => exact ih (made + 1) hk

theorem count_follow (made : Nat) :
    (((rules c side).follow made robots ds).filter (tracks c side)).length =
      max (robots.filter (tracks c side)).length ds.length := by
  rw [show tracks c side = (rules c side).sel from rfl, Rules.filter_follow]
  simp only [List.length_append, List.length_zipWith, List.length_map, List.length_drop,
    length_newcomers]
  omega

theorem shown_follow (made : Nat) {k : Nat} {robot : SSLDetectionRobot}
    (hids : ∀ id, robot.robotId? = some id → id.toNat < 65535) (hk : ds[k]? = some robot) :
    ∃ r, (((rules c side).follow made robots ds).filter (tracks c side))[k]? = some r ∧
      Shows r robot := by
  rw [show tracks c side = (rules c side).sel from rfl, Rules.filter_follow]
  have hlt := (List.getElem?_eq_some_iff.mp hk).1
  rcases Nat.lt_or_ge k (robots.filter (rules c side).sel).length with hold | hnew
  · -- The detection is laid over a robot that was there.
    refine ⟨poseRobot robot (robots.filter (rules c side).sel)[k], ?_, shows_poseRobot hids _⟩
    rw [List.append_assoc, List.getElem?_append_left (by simp [hold, hlt]), List.getElem?_zipWith, hk,
      List.getElem?_eq_getElem hold]
    rfl
  · -- The detection is one of those left over.
    have hleft : (ds.drop (robots.filter (rules c side).sel).length)[k -
        (robots.filter (rules c side).sel).length]? = some robot := by
      rw [List.getElem?_drop, Nat.add_sub_cancel' hnew, hk]
    obtain ⟨r, hr, hshows⟩ : ∃ r, ((rules c side).newcomers made _)[_]? = some r ∧ Shows r robot :=
      newcomers_show made hids hleft
    refine ⟨r, ?_, hshows⟩
    rw [List.getElem?_append_right (by simp; omega), ← hr]
    congr 1
    simp
    omega

theorem hidden_follow (made : Nat) {k : Nat} {r : Robot} (hn : ds.length ≤ k)
    (hk : (robots.filter (tracks c side))[k]? = some r) :
    (((rules c side).follow made robots ds).filter (tracks c side))[k]? =
      some { r with conf := 0 } := by
  rw [show tracks c side = (rules c side).sel from rfl] at hk ⊢
  have hlt := (List.getElem?_eq_some_iff.mp hk).1
  rw [Rules.filter_follow, List.getElem?_append_left (by simp; omega),
    List.getElem?_append_right (by simp; omega), List.getElem?_map, List.getElem?_drop]
  have hindex : ds.length + (k - (List.zipWith (rules c side).pose ds
      (robots.filter (rules c side).sel)).length) = k := by
    simp
    omega
  rw [hindex, hk]
  rfl

end

theorem filter_follow_both (c : BitVec 32) (made made' : Nat) (robots : List Robot)
    (blue yellow : List SSLDetectionRobot) (side : Side) :
    ∃ robots' made'',
      (((rules c .yellow).follow made' ((rules c .blue).follow made robots blue) yellow).filter
          (tracks c side)) =
        ((rules c side).follow made'' robots'
          (match side with | .blue => blue | .yellow => yellow)).filter (tracks c side) ∧
      robots'.filter (tracks c side) = robots.filter (tracks c side) := by
  have hdisjoint := disjoint_rules c
  cases side with
  | blue => exact ⟨robots, made, Rules.filter_follow_of_disjoint hdisjoint _ _ _, rfl⟩
  | yellow =>
    exact ⟨_, made', rfl, Rules.filter_follow_of_disjoint hdisjoint.symm _ _ _⟩

theorem placeRobots_follows (scene : FieldScene) {detection : SSLDetectionFrame}
    (hids : IdsBelowNA detection) :
    Follows detection scene.robots (scene.placeRobots detection).robots := by
  obtain ⟨made, hrobots⟩ := robots_placeRobots scene detection
  have hteam (side : Side) : ∃ robots' made',
      (scene.placeRobots detection).robots.filter (tracks detection.cameraId side) =
        ((rules detection.cameraId side).follow made' robots' (detection.robots side)).filter
          (tracks detection.cameraId side) ∧
      robots'.filter (tracks detection.cameraId side) =
        scene.robots.filter (tracks detection.cameraId side) := by
    rw [hrobots]
    obtain ⟨robots', made', hfilter, hsame⟩ := filter_follow_both detection.cameraId
      scene.robotsMade made scene.robots detection.robotsBlue detection.robotsYellow side
    refine ⟨robots', made', ?_, hsame⟩
    cases side <;> exact hfilter
  constructor
  case extended =>
    rw [hrobots]
    exact (Rules.map_prefix_follow item_poseRobot (fun _ => rfl) _ _ _).trans
      (Rules.map_prefix_follow item_poseRobot (fun _ => rfl) _ _ _)
  case unchanged =>
    intro i r hi hr
    rw [hrobots]
    exact Rules.getElem?_follow_of_not_sel
      (Rules.getElem?_follow_of_not_sel hi (hr .blue) _ _) (hr .yellow) _ _
  case added =>
    intro i r hi hr
    rw [hrobots] at hr
    cases hbefore : ((rules detection.cameraId .blue).follow scene.robotsMade scene.robots
        detection.robotsBlue)[i]? with
    | some r' =>
      have hblue := Rules.sel_of_length_le hi hbefore
      rw [Rules.getElem?_follow_of_not_sel hbefore ((disjoint_rules _).symm r' hblue)] at hr
      obtain rfl := Option.some.inj hr
      exact ⟨.blue, hblue⟩
    | none => exact ⟨.yellow, Rules.sel_of_length_le (List.getElem?_eq_none_iff.mp hbefore) hr⟩
  case count =>
    intro side
    obtain ⟨robots', made', hfilter, hsame⟩ := hteam side
    rw [hfilter, count_follow, hsame]
  case shown =>
    intro side k robot hk
    obtain ⟨robots', made', hfilter, -⟩ := hteam side
    rw [hfilter]
    exact shown_follow made' (hids side robot (List.mem_of_getElem? hk)) hk
  case hidden =>
    intro side k r hn hk
    obtain ⟨robots', made', hfilter, hsame⟩ := hteam side
    rw [hfilter]
    exact hidden_follow made' hn (hsame ▸ hk)

theorem robots_placeBalls {scene scene' : FieldScene} {balls : List (Double × Double)}
    {cameraID : Int} (h : scene.placeBalls balls cameraID = some scene') :
    scene'.robots = scene.robots := by
  have hiterate {f : FieldScene → FieldScene} (hf : ∀ s, (f s).robots = s.robots) (n : Nat)
      (s : FieldScene) : (f^[n] s).robots = s.robots :=
    Function.Iterate.rec (fun t => t.robots = s.robots) rfl (fun t ht => (hf t).trans ht) n
  have happend (cam : Nat) (s : FieldScene) : (appendBall cam s).robots = s.robots := rfl
  have hremove (cam : Nat) (s : FieldScene) : (removeBall cam s).robots = s.robots := by
    rw [removeBall]
    split <;> rfl
  have hresize (cam size : Nat) (s : FieldScene) : (s.resizeBalls cam size).robots = s.robots := by
    simp only [resizeBalls]
    split
    · exact hiterate (happend cam) _ _
    · split
      · exact hiterate (hremove cam) _ _
      · rfl
  simp only [placeBalls] at h
  split at h
  · obtain rfl := Option.some.inj h
    exact hresize _ _ _
  · cases h

/-- After a frame the scene's robots show it; the ball part leaves them alone
and has a result for every camera number an `int` can count past. -/
theorem updateRobots_follows (scene : FieldScene) {detection : SSLDetectionFrame}
    (hids : IdsBelowNA detection) :
    Follows detection scene.robots (scene.placeRobots detection).robots ∧
      (∀ scene', scene.updateRobots detection = some scene' →
        scene'.robots = (scene.placeRobots detection).robots) ∧
      (detection.cameraId.toNat < 2147483647 → ∃ scene', scene.updateRobots detection = some scene') := by
  refine ⟨placeRobots_follows scene hids, fun scene' h => robots_placeBalls h, fun hcamera => ?_⟩
  have hsigned : detection.cameraId.toInt = (detection.cameraId.toNat : Int) :=
    BitVec.toInt_eq_toNat_of_lt (by omega)
  rw [updateRobots, placeBalls, if_pos (by rw [hsigned]; omega)]
  exact ⟨_, rfl⟩

def oneRobotFrame : SSLDetectionFrame where
  cameraId := 0
  balls := []
  robotsYellow := []
  robotsBlue := [⟨.ofInt 1, some 3, .ofInt 10, .ofInt (-20), none⟩]

theorem updateRobots_follows_oneRobotFrame :
    Follows oneRobotFrame [] (new.placeRobots oneRobotFrame).robots ∧
      (∀ scene', new.updateRobots oneRobotFrame = some scene' →
        scene'.robots = (new.placeRobots oneRobotFrame).robots) ∧
      (oneRobotFrame.cameraId.toNat < 2147483647 →
        ∃ scene', new.updateRobots oneRobotFrame = some scene') := by
  refine updateRobots_follows new ?_
  rintro (_ | _) robot hrobot id hid
  · obtain rfl : robot = _ := List.mem_singleton.mp hrobot
    obtain rfl := Option.some.inj hid
    decide
  · cases hrobot

end LARCmaCS.FieldScene
