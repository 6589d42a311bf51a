import LARCmaCS.Lib.Log
import LARCmaCS.Scene.FieldScene

/-!
# The graphics scene is consistent

Whatever is called in whatever order, the items in the graphics scene are the
field, the scene's robots and all cameras' balls, each once, and a camera's
balls lie where the last call that named the camera put them
(`scene_consistent`).
-/

namespace LARCmaCS.FieldScene

-- ---------------------------------------------------------------------------
-- Calls
-- ---------------------------------------------------------------------------

inductive SceneCall
  | updateRobots (detection : SSLDetectionFrame)
  | updateBalls (balls : List (Double × Double)) (cameraID : Int)
  | updateField (field : SSLGeometryFieldSize)
  | updateGeometry (fieldSize : SSLGeometryFieldSize)

/-- A call, with the number it returns if it returns one. -/
def step (scene : FieldScene) : SceneCall → Option (FieldScene × Option Nat)
  | .updateRobots detection => (scene.updateRobots detection).map (·, none)
  | .updateBalls balls cameraID =>
    (scene.updateBalls balls cameraID).map fun (scene, n) => (scene, some n)
  | .updateField field => some (scene.updateField field, none)
  | .updateGeometry fieldSize => some (scene.updateGeometry fieldSize, none)

/-- Camera numbers are from 0 to one below the largest `int`. -/
def SceneCall.InRange : SceneCall → Prop
  | .updateRobots detection => detection.cameraId.toNat < 2147483647
  | .updateBalls _ cameraID => 0 ≤ cameraID ∧ cameraID < 2147483647
  | .updateField _ => True
  | .updateGeometry _ => True

def SceneCall.balls (cam : Nat) : SceneCall → Option (List (Double × Double))
  | .updateRobots detection =>
    if detection.cameraId.toNat = cam then some (ballPositions detection) else none
  | .updateBalls balls cameraID => if cameraID = cam then some balls else none
  | .updateField _ => none
  | .updateGeometry _ => none

-- ---------------------------------------------------------------------------
-- Items
-- ---------------------------------------------------------------------------

/-- The items that the scene's own variables refer to. -/
def referred (scene : FieldScene) : List Item :=
  scene.fieldItem :: (scene.robots.map Robot.item ++ scene.ballItems.flatten.map BallItem.item)

def Made (scene : FieldScene) : Item → Prop
  | .path n => n < scene.pathsMade
  | .robot n => n < scene.robotsMade
  | .ellipse n => n < scene.ellipsesMade

structure Consistent (scene : FieldScene) : Prop where
  perm : scene.items.Perm scene.referred
  nodup : scene.items.Nodup
  made : ∀ item ∈ scene.items, scene.Made item

variable {scene scene' : FieldScene} {item : Item}

theorem Consistent.keep (h : scene.Consistent) (hitems : scene'.items = scene.items)
    (hreferred : scene'.referred.Perm scene.referred)
    (hmade : ∀ i, scene.Made i → scene'.Made i) : scene'.Consistent where
  perm := hitems ▸ h.perm.trans hreferred.symm
  nodup := hitems ▸ h.nodup
  made i hi := hmade i (h.made i (hitems ▸ hi))

theorem Consistent.insert (h : scene.Consistent) (hitems : scene'.items = scene.items ++ [item])
    (hreferred : scene'.referred.Perm (item :: scene.referred)) (hnew : ¬scene.Made item)
    (hmade : ∀ i, scene.Made i ∨ i = item → scene'.Made i) : scene'.Consistent where
  perm := by
    rw [hitems]
    exact (List.perm_append_singleton item scene.items).trans
      ((h.perm.cons item).trans hreferred.symm)
  nodup := by
    rw [hitems, List.nodup_append]
    refine ⟨h.nodup, List.nodup_singleton item, fun i hi j hj => ?_⟩
    obtain rfl := List.mem_singleton.mp hj
    rintro rfl
    exact hnew (h.made i hi)
  made i hi := by
    rw [hitems, List.mem_append, List.mem_singleton] at hi
    exact hmade i (hi.imp_left (h.made i))

theorem Consistent.remove (h : scene.Consistent) (hitems : scene'.items = scene.items.erase item)
    (hreferred : scene.referred.Perm (item :: scene'.referred))
    (hmade : ∀ i, scene.Made i → scene'.Made i) : scene'.Consistent where
  perm := by
    have herase := (h.perm.trans hreferred).erase item
    rwa [List.erase_cons_head, ← hitems] at herase
  nodup := hitems ▸ h.nodup.erase item
  made i hi := hmade i (h.made i (List.mem_of_mem_erase (hitems ▸ hi)))

theorem consistent_new : new.Consistent where
  perm := .refl _
  nodup := List.nodup_singleton _
  made i hi := by
    obtain rfl := List.mem_singleton.mp hi
    exact Nat.one_pos

theorem Consistent.loadFieldGeometry (h : scene.Consistent) (fieldSize : SSLGeometryFieldSize) :
    (scene.loadFieldGeometry fieldSize).Consistent where
  perm := by
    have herase := h.perm.erase scene.fieldItem
    rw [referred, List.erase_cons_head] at herase
    exact (List.perm_append_singleton _ _).trans (herase.cons _)
  nodup := by
    refine List.nodup_append.mpr ⟨h.nodup.erase _, List.nodup_singleton _, fun i hi j hj => ?_⟩
    obtain rfl := List.mem_singleton.mp hj
    rintro rfl
    exact Nat.lt_irrefl _ (h.made _ (List.mem_of_mem_erase hi))
  made i hi := by
    rcases List.mem_append.mp hi with hi | hi
    · have hmade := h.made i (List.mem_of_mem_erase hi)
      cases i with
      | path n => exact Nat.lt_succ_of_lt hmade
      | robot n => exact hmade
      | ellipse n => exact hmade
    · obtain rfl := List.mem_singleton.mp hi
      exact Nat.lt_succ_self _

-- ---------------------------------------------------------------------------
-- Robots
-- ---------------------------------------------------------------------------

theorem Consistent.keepLists (h : scene.Consistent) (hitems : scene'.items = scene.items)
    (hfield : scene'.fieldItem = scene.fieldItem)
    (hrobots : scene'.robots.map Robot.item = scene.robots.map Robot.item)
    (hballs : scene'.ballItems.flatten.map BallItem.item =
      scene.ballItems.flatten.map BallItem.item)
    (hmade : ∀ i, scene.Made i → scene'.Made i) : scene'.Consistent :=
  h.keep hitems (by rw [referred, referred, hfield, hrobots, hballs]) hmade

theorem map_item_modify (robots : List Robot) (j : Nat) (robot : SSLDetectionRobot) :
    (robots.modify j (poseRobot robot)).map Robot.item = robots.map Robot.item := by
  rcases Nat.lt_or_ge j robots.length with hj | hj
  · obtain ⟨pre, r, post, rfl, -, hmodify⟩ := List.exists_of_modify (poseRobot robot) hj
    simp [hmodify]
  · rw [List.modify_eq_self hj]

theorem Consistent.poseRobot (h : scene.Consistent) (j : Nat) (robot : SSLDetectionRobot) :
    ({ scene with robots := scene.robots.modify j (poseRobot robot) } : FieldScene).Consistent :=
  h.keepLists rfl rfl (map_item_modify _ _ _) rfl fun _ hi => hi

theorem Consistent.addRobot (h : scene.Consistent) {r : Robot}
    (hitem : r.item = .robot scene.robotsMade) :
    ({ scene.addRobot r with robotsMade := scene.robotsMade + 1 } : FieldScene).Consistent := by
  refine h.insert (show _ = scene.items ++ [r.item] from rfl) ?_ ?_ ?_
  · simp only [referred, FieldScene.addRobot, addItem, List.map_append, List.map_cons, List.map_nil,
      List.append_assoc, List.singleton_append]
    exact (List.perm_middle.cons scene.fieldItem).trans (.swap _ _ _)
  · rw [hitem]
    exact Nat.lt_irrefl _
  · rintro i (hi | rfl)
    · cases i with
      | path n => exact hi
      | robot n => exact Nat.lt_succ_of_lt hi
      | ellipse n => exact hi
    · rw [hitem]
      exact Nat.lt_succ_self _

theorem Consistent.pass {s : RobotLoop} (h : s.scene.Consistent) (cameraId : BitVec 32)
    (d : Side × SSLDetectionRobot) : (s.pass cameraId d).scene.Consistent := by
  obtain ⟨side, robot⟩ := d
  have hadd := h.addRobot (r := newRobot cameraId side s.scene.robotsMade robot) rfl
  cases side with
  | blue =>
    simp only [RobotLoop.pass]
    split
    · exact hadd.poseRobot _ robot
    · exact h.poseRobot _ robot
  | yellow =>
    simp only [RobotLoop.pass]
    split
    · exact hadd.poseRobot _ robot
    · exact h.poseRobot _ robot

theorem Consistent.hideRobots (h : scene.Consistent) (cameraId : BitVec 32) (side : Side)
    (j : Nat) : (scene.hideRobots cameraId side j).Consistent := by
  refine h.keepLists rfl rfl ?_ rfl fun _ hi => hi
  apply List.ext_getElem?
  intro i
  simp only [FieldScene.hideRobots, List.getElem?_map, List.getElem?_mapIdx, Option.map_map]
  congr 1
  funext r
  dsimp only [Function.comp_apply]
  split <;> rfl

theorem Consistent.placeRobots (h : scene.Consistent) (detection : SSLDetectionFrame) :
    (scene.placeRobots detection).Consistent := by
  have hloop (ds : List (Side × SSLDetectionRobot)) (s : RobotLoop) (hs : s.scene.Consistent) :
      (ds.foldl (RobotLoop.pass detection.cameraId) s).scene.Consistent := by
    induction ds generalizing s with
    | nil => exact hs
    | cons d ds ih => exact ih _ (hs.pass detection.cameraId d)
  exact ((hloop _ ⟨scene, 0, 0⟩ h).hideRobots _ _ _).hideRobots _ _ _

-- ---------------------------------------------------------------------------
-- A camera's balls
-- ---------------------------------------------------------------------------

theorem camera_modify {cam k : Nat} {f : List BallItem → List BallItem}
    (h : scene'.ballItems = scene.ballItems.modify cam f) (hk : k ≠ cam) :
    scene'.camera k = scene.camera k := by
  rw [camera, h, List.getElem?_modify_ne _ _ hk.symm, camera]

theorem camera_modify_self {cam : Nat} {f : List BallItem → List BallItem}
    (h : scene'.ballItems = scene.ballItems.modify cam f) (hcam : cam < scene.ballItems.length) :
    scene'.camera cam = f (scene.camera cam) := by
  rw [camera, h, List.getElem?_modify_eq, camera, List.getElem?_eq_getElem hcam]
  rfl

structure KeepsOthers (cam : Nat) (scene scene' : FieldScene) : Prop where
  length : scene'.ballItems.length = scene.ballItems.length
  camera : ∀ k, k ≠ cam → scene'.camera k = scene.camera k
  ksize : scene'.ksize = scene.ksize
  consistent : scene.Consistent → scene'.Consistent

theorem KeepsOthers.refl (cam : Nat) (scene : FieldScene) : KeepsOthers cam scene scene :=
  ⟨rfl, fun _ _ => rfl, rfl, id⟩

theorem KeepsOthers.trans {cam : Nat} {s t u : FieldScene} (h₁ : KeepsOthers cam s t)
    (h₂ : KeepsOthers cam t u) : KeepsOthers cam s u where
  length := h₂.length.trans h₁.length
  camera k hk := (h₂.camera k hk).trans (h₁.camera k hk)
  ksize := h₂.ksize.trans h₁.ksize
  consistent := h₂.consistent ∘ h₁.consistent

theorem flatten_modify_append {cam : Nat} {ballItems : List (List BallItem)}
    (hcam : cam < ballItems.length) (ball : BallItem) :
    (ballItems.modify cam (· ++ [ball])).flatten.Perm (ball :: ballItems.flatten) := by
  obtain ⟨pre, items, post, rfl, -, hmodify⟩ := List.exists_of_modify (· ++ [ball]) hcam
  rw [hmodify]
  simp only [List.flatten_append, List.flatten_cons, List.append_assoc, List.singleton_append]
  rw [← List.append_assoc, ← List.append_assoc]
  exact List.perm_middle

theorem keepsOthers_appendBall {cam : Nat} (hcam : cam < scene.ballItems.length) :
    KeepsOthers cam scene (appendBall cam scene) where
  length := List.length_modify _ _ _
  camera _ hk := camera_modify rfl hk
  ksize := rfl
  consistent h := by
    refine h.insert (show _ = scene.items ++ [.ellipse scene.ellipsesMade] from rfl) ?_
      (Nat.lt_irrefl _) ?_
    · have hballs :=
        (flatten_modify_append hcam ⟨.ellipse scene.ellipsesMade, 0, 0⟩).map BallItem.item
      have hrobots := hballs.append_left (scene.robots.map Robot.item)
      exact ((hrobots.trans List.perm_middle).cons scene.fieldItem).trans (.swap _ _ _)
    · rintro i (hi | rfl)
      · cases i with
        | path n => exact hi
        | robot n => exact hi
        | ellipse n => exact Nat.lt_succ_of_lt hi
      · exact Nat.lt_succ_self _

theorem flatten_modify_tail {cam : Nat} {ballItems : List (List BallItem)} {ball : BallItem}
    {items : List BallItem} (h : ballItems[cam]? = some (ball :: items)) :
    ballItems.flatten.Perm (ball :: (ballItems.modify cam List.tail).flatten) := by
  obtain ⟨hcam, hget⟩ := List.getElem?_eq_some_iff.mp h
  obtain ⟨pre, items', post, rfl, rfl, hmodify⟩ := List.exists_of_modify List.tail hcam
  rw [List.getElem_append_right (Nat.le_refl _)] at hget
  simp only [Nat.sub_self, List.getElem_cons_zero] at hget
  rw [hmodify, hget]
  simp only [List.flatten_append, List.flatten_cons, List.tail_cons, List.cons_append]
  exact List.perm_middle

theorem keepsOthers_removeBall (cam : Nat) (scene : FieldScene) :
    KeepsOthers cam scene (removeBall cam scene) := by
  unfold removeBall
  split
  · rename_i ball items hballs
    refine ⟨List.length_modify _ _ _, fun _ hk => camera_modify rfl hk, rfl, fun h => ?_⟩
    refine h.remove (show _ = scene.items.erase ball.item from rfl) ?_ fun _ hi => hi
    have hrobots := ((flatten_modify_tail hballs).map BallItem.item).append_left
      (scene.robots.map Robot.item)
    exact ((hrobots.trans List.perm_middle).cons scene.fieldItem).trans (.swap _ _ _)
  · exact .refl cam scene

theorem camera_removeBall (cam : Nat) (scene : FieldScene) :
    (removeBall cam scene).camera cam = (scene.camera cam).tail := by
  unfold removeBall
  split
  · rename_i ball items hballs
    exact camera_modify_self rfl (List.getElem?_eq_some_iff.mp hballs).1
  · rename_i hnone
    rw [camera]
    cases hballs : scene.ballItems[cam]? with
    | none => rfl
    | some items =>
      cases items with
      | nil => rfl
      | cons ball items => exact absurd hballs (hnone ball items)

theorem iterate_appendBall {cam : Nat} (hcam : cam < scene.ballItems.length) (n : Nat) :
    KeepsOthers cam scene ((appendBall cam)^[n] scene) ∧
      (((appendBall cam)^[n] scene).camera cam).length = (scene.camera cam).length + n := by
  induction n with
  | zero => exact ⟨.refl cam scene, rfl⟩
  | succ n ih =>
    obtain ⟨hkeeps, hlength⟩ := ih
    have hcam' : cam < ((appendBall cam)^[n] scene).ballItems.length := by rwa [hkeeps.length]
    rw [Function.iterate_succ_apply']
    refine ⟨hkeeps.trans (keepsOthers_appendBall hcam'), ?_⟩
    rw [camera_modify_self rfl hcam', List.length_append, hlength]
    rfl

theorem iterate_removeBall (cam : Nat) (scene : FieldScene) (n : Nat) :
    KeepsOthers cam scene ((removeBall cam)^[n] scene) ∧
      (((removeBall cam)^[n] scene).camera cam).length = (scene.camera cam).length - n := by
  induction n with
  | zero => exact ⟨.refl cam scene, rfl⟩
  | succ n ih =>
    obtain ⟨hkeeps, hlength⟩ := ih
    rw [Function.iterate_succ_apply']
    refine ⟨hkeeps.trans (keepsOthers_removeBall cam _), ?_⟩
    rw [camera_removeBall, List.length_tail, hlength]
    omega

theorem resizeBalls_spec {cam : Nat} (hcam : cam < scene.ballItems.length) (size : Nat) :
    KeepsOthers cam scene (scene.resizeBalls cam size) ∧
      ((scene.resizeBalls cam size).camera cam).length = size := by
  simp only [resizeBalls]
  split
  · obtain ⟨hkeeps, hlength⟩ := iterate_appendBall hcam (size - (scene.camera cam).length)
    exact ⟨hkeeps, by omega⟩
  · split
    · obtain ⟨hkeeps, hlength⟩ := iterate_removeBall cam scene ((scene.camera cam).length - size)
      exact ⟨hkeeps, by omega⟩
    · exact ⟨.refl cam scene, by omega⟩

def BallItem.pos (b : BallItem) : Double × Double := (b.x, b.y)

theorem item_moveBall (ksize : Rat) (balls : List (Double × Double)) (i : Nat) (b : BallItem) :
    (moveBall ksize balls i b).item = b.item := by
  unfold moveBall
  split <;> rfl

theorem setBalls_spec {cam : Nat} (hcam : cam < scene.ballItems.length)
    {balls : List (Double × Double)} (hlength : (scene.camera cam).length = balls.length) :
    KeepsOthers cam scene (scene.setBalls cam balls) ∧
      ((scene.setBalls cam balls).camera cam).map BallItem.pos =
        balls.map (ballPos scene.ksize) := by
  constructor
  · refine ⟨List.length_modify _ _ _, fun _ hk => camera_modify rfl hk, rfl, fun h => ?_⟩
    refine h.keepLists rfl rfl rfl ?_ fun _ hi => hi
    obtain ⟨pre, items, post, hballs, -, hmodify⟩ :=
      List.exists_of_modify (List.mapIdx (moveBall scene.ksize balls)) hcam
    have hitems : (items.mapIdx (moveBall scene.ksize balls)).map BallItem.item =
        items.map BallItem.item := by
      apply List.ext_getElem?
      intro i
      rw [List.getElem?_map, List.getElem?_mapIdx, Option.map_map, List.getElem?_map]
      exact congrArg (Option.map · items[i]?) (funext fun b => item_moveBall _ _ i b)
    rw [setBalls, hmodify, hballs]
    simp [hitems]
  · rw [camera_modify_self rfl hcam]
    apply List.ext_getElem?
    intro i
    rw [List.getElem?_map, List.getElem?_mapIdx, Option.map_map, List.getElem?_map]
    cases hball : balls[i]? with
    | none =>
      rw [List.getElem?_eq_none_iff] at hball
      rw [List.getElem?_eq_none (by omega)]
      rfl
    | some ball =>
      have hi := (List.getElem?_eq_some_iff.mp hball).1
      rw [List.getElem?_eq_getElem (by omega)]
      simp [moveBall, hball, BallItem.setPos, BallItem.pos]

theorem addCameras_spec (scene : FieldScene) (cam : Nat) :
    (scene.Consistent → (scene.addCameras cam).Consistent) ∧
      (∀ k, (scene.addCameras cam).camera k = scene.camera k) ∧
      cam < (scene.addCameras cam).ballItems.length := by
  refine ⟨fun h => h.keepLists rfl rfl rfl ?_ fun _ hi => hi, fun k => ?_, ?_⟩
  · simp [addCameras]
  · simp only [camera, addCameras, List.getElem?_append, List.getElem?_replicate]
    split
    · rfl
    · rename_i hk
      rw [List.getElem?_eq_none (by omega)]
      split <;> rfl
  · simp only [addCameras, List.length_append, List.length_replicate]
    omega

theorem placeBalls_spec {balls : List (Double × Double)} {cameraID : Int}
    (h : scene.placeBalls balls cameraID = some scene') :
    (scene.Consistent → scene'.Consistent) ∧ scene'.ksize = scene.ksize ∧
      (∀ cam : Nat, cam ≠ cameraID.toNat → scene'.camera cam = scene.camera cam) ∧
      (scene'.camera cameraID.toNat).map BallItem.pos = balls.map (ballPos scene.ksize) := by
  simp only [placeBalls] at h
  split at h
  · obtain rfl := Option.some.inj h
    obtain ⟨hconsistent, hcamera, hcam⟩ := addCameras_spec scene cameraID.toNat
    obtain ⟨hresize, hlength⟩ := resizeBalls_spec hcam balls.length
    obtain ⟨hset, hpos⟩ := setBalls_spec (by rwa [hresize.length]) hlength
    have hkeeps := hresize.trans hset
    refine ⟨fun h => hkeeps.consistent (hconsistent h), hkeeps.ksize, fun k hk => ?_, ?_⟩
    · rw [hkeeps.camera k hk, hcamera]
    · rw [hpos, hresize.ksize]
      rfl
  · cases h

-- ---------------------------------------------------------------------------
-- Robots do not touch the balls
-- ---------------------------------------------------------------------------

structure SameBalls (s t : FieldScene) : Prop where
  ballItems : s.ballItems = t.ballItems
  ksize : s.ksize = t.ksize
  ellipsesMade : s.ellipsesMade = t.ellipsesMade

theorem sameBalls_pass (cameraId : BitVec 32) (s : RobotLoop) (d : Side × SSLDetectionRobot) :
    SameBalls (s.pass cameraId d).scene s.scene := by
  obtain ⟨side, robot⟩ := d
  cases side with
  | blue =>
    simp only [RobotLoop.pass]
    split <;> exact ⟨rfl, rfl, rfl⟩
  | yellow =>
    simp only [RobotLoop.pass]
    split <;> exact ⟨rfl, rfl, rfl⟩

theorem sameBalls_placeRobots (scene : FieldScene) (detection : SSLDetectionFrame) :
    SameBalls (scene.placeRobots detection) scene := by
  have hloop (ds : List (Side × SSLDetectionRobot)) (s : RobotLoop) :
      SameBalls (ds.foldl (RobotLoop.pass detection.cameraId) s).scene s.scene := by
    induction ds generalizing s with
    | nil => exact ⟨rfl, rfl, rfl⟩
    | cons d ds ih =>
      have hpass := sameBalls_pass detection.cameraId s d
      have hrest := ih (s.pass detection.cameraId d)
      exact ⟨hrest.ballItems.trans hpass.ballItems, hrest.ksize.trans hpass.ksize,
        hrest.ellipsesMade.trans hpass.ellipsesMade⟩
  exact ⟨(hloop _ ⟨scene, 0, 0⟩).ballItems, (hloop _ ⟨scene, 0, 0⟩).ksize,
    (hloop _ ⟨scene, 0, 0⟩).ellipsesMade⟩

theorem SameBalls.appendBall {s t : FieldScene} (h : SameBalls s t) (cam : Nat) :
    SameBalls (appendBall cam s) (appendBall cam t) := by
  refine ⟨?_, h.ksize, congrArg (· + 1) h.ellipsesMade⟩
  simp only [FieldScene.appendBall, h.ballItems, h.ellipsesMade]

theorem SameBalls.removeBall {s t : FieldScene} (h : SameBalls s t) (cam : Nat) :
    SameBalls (removeBall cam s) (removeBall cam t) := by
  unfold FieldScene.removeBall
  rw [h.ballItems]
  split
  · exact ⟨rfl, h.ksize, h.ellipsesMade⟩
  · exact h

theorem SameBalls.iterate {f : FieldScene → FieldScene}
    (hf : ∀ {s t}, SameBalls s t → SameBalls (f s) (f t)) {s t : FieldScene} (h : SameBalls s t)
    (n : Nat) : SameBalls (f^[n] s) (f^[n] t) := by
  induction n generalizing s t with
  | zero => exact h
  | succ n ih => exact ih (hf h)

theorem SameBalls.resizeBalls {s t : FieldScene} (h : SameBalls s t) (cam size : Nat) :
    SameBalls (s.resizeBalls cam size) (t.resizeBalls cam size) := by
  have hlength : (s.camera cam).length = (t.camera cam).length := by rw [camera, h.ballItems, camera]
  by_cases hgrow : (t.camera cam).length < size
  · have hs : s.resizeBalls cam size = _ := if_pos (hlength ▸ hgrow)
    have ht : t.resizeBalls cam size = _ := if_pos hgrow
    rw [hs, ht, hlength]
    exact h.iterate (fun h => h.appendBall cam) _
  · have hs : s.resizeBalls cam size = _ := if_neg (hlength ▸ hgrow)
    have ht : t.resizeBalls cam size = _ := if_neg hgrow
    rw [hs, ht]
    by_cases hshrink : (t.camera cam).length > size
    · rw [if_pos hshrink, if_pos (hlength ▸ hshrink), hlength]
      exact h.iterate (fun h => h.removeBall cam) _
    · rwa [if_neg hshrink, if_neg (hlength ▸ hshrink)]

theorem SameBalls.placeBalls {s t : FieldScene} (h : SameBalls s t) (balls : List (Double × Double))
    (cameraID : Int) :
    (s.placeBalls balls cameraID).map FieldScene.ballItems =
      (t.placeBalls balls cameraID).map FieldScene.ballItems := by
  have hadd (cam : Nat) : SameBalls (s.addCameras cam) (t.addCameras cam) :=
    ⟨by simp only [addCameras, h.ballItems], h.ksize, h.ellipsesMade⟩
  have hresize (cam size : Nat) := (hadd cam).resizeBalls cam size
  simp only [FieldScene.placeBalls]
  split
  · simp only [Option.map_some, setBalls, (hresize _ _).ballItems, (hresize _ _).ksize]
  · rfl

/-- `UpdateBalls` with a frame's balls does to the ball items what
`UpdateRobots` does. -/
theorem ballItems_updateRobots (scene : FieldScene) (detection : SSLDetectionFrame) :
    (scene.updateRobots detection).map FieldScene.ballItems =
      (scene.updateBalls (ballPositions detection) detection.cameraId.toInt).map
        (·.1.ballItems) := by
  rw [updateRobots, updateBalls, Option.map_map]
  exact (sameBalls_placeRobots scene detection).placeBalls _ _

-- ---------------------------------------------------------------------------
-- Runs
-- ---------------------------------------------------------------------------

/-- Every camera's balls lie where the latest call that named it put them. -/
def LaidOut (calls : List SceneCall) (scene : FieldScene) : Prop :=
  ∀ cam : Nat, (scene.camera cam).map BallItem.pos =
    ((Log.latest (SceneCall.balls cam) calls).getD []).map (ballPos 10)

structure Good (calls : List SceneCall) (scene : FieldScene) : Prop where
  consistent : scene.Consistent
  ksize : scene.ksize = 10
  laidOut : LaidOut calls scene

theorem Good.placeBalls {calls : List SceneCall} {balls : List (Double × Double)} {cameraID : Int}
    (hconsistent : scene.Consistent) (hksize : scene.ksize = 10) (hlaid : LaidOut calls scene)
    (h : scene.placeBalls balls cameraID = some scene') {c : SceneCall}
    (hself : c.balls cameraID.toNat = some balls)
    (hother : ∀ cam, cam ≠ cameraID.toNat → c.balls cam = none) : Good (calls ++ [c]) scene' := by
  obtain ⟨hkeep, hsize, hcamera, hpos⟩ := placeBalls_spec h
  refine ⟨hkeep hconsistent, hsize.trans hksize, fun cam => ?_⟩
  by_cases hcam : cam = cameraID.toNat
  · rw [hcam, hpos, hksize, Log.latest_append, Log.latest_cons, hself]
    rfl
  · rw [hcamera cam hcam, hlaid cam, Log.latest_append_of_silent]
    simpa using hother cam hcam

theorem toInt_cameraId {detection : SSLDetectionFrame}
    (hrange : (SceneCall.updateRobots detection).InRange) :
    detection.cameraId.toInt = detection.cameraId.toNat := by
  simp only [SceneCall.InRange] at hrange
  exact BitVec.toInt_eq_toNat_of_lt (by omega)

theorem Good.step {calls : List SceneCall} {c : SceneCall} {out : Option Nat}
    (h : Good calls scene) (hrange : c.InRange) (hstep : scene.step c = some (scene', out)) :
    Good (calls ++ [c]) scene' := by
  have hsilent {s : FieldScene} (hs : ∀ cam, c.balls cam = none)
      (hcamera : s.ballItems = scene.ballItems) : LaidOut (calls ++ [c]) s := by
    intro cam
    rw [Log.latest_append_of_silent (by simpa using hs cam), camera, hcamera]
    exact h.laidOut cam
  cases c with
  | updateRobots detection =>
    obtain ⟨s, hs, hpair⟩ := Option.map_eq_some_iff.mp hstep
    obtain ⟨rfl, -⟩ := Prod.mk.inj hpair
    have hsame := sameBalls_placeRobots scene detection
    have hsigned : detection.cameraId.toInt.toNat = detection.cameraId.toNat := by
      rw [toInt_cameraId hrange, Int.toNat_natCast]
    refine Good.placeBalls (h.consistent.placeRobots detection) (hsame.ksize.trans h.ksize) ?_ hs
      (by simp [SceneCall.balls, hsigned]) (fun cam hcam => ?_)
    · intro cam
      rw [camera, hsame.ballItems]
      exact h.laidOut cam
    · rw [hsigned] at hcam
      simp [SceneCall.balls, hcam.symm]
  | updateBalls balls cameraID =>
    obtain ⟨⟨s, n⟩, hs, hpair⟩ := Option.map_eq_some_iff.mp hstep
    obtain ⟨rfl, -⟩ := Prod.mk.inj hpair
    obtain ⟨t, ht, hpair⟩ := Option.map_eq_some_iff.mp hs
    obtain ⟨rfl, -⟩ := Prod.mk.inj hpair
    simp only [SceneCall.InRange] at hrange
    refine Good.placeBalls h.consistent h.ksize h.laidOut ht ?_ fun cam hcam => ?_
    · rw [SceneCall.balls, if_pos (by omega)]
    · rw [SceneCall.balls, if_neg (by omega)]
  | updateField field =>
    obtain ⟨rfl, -⟩ := Prod.mk.inj (Option.some.inj hstep)
    exact ⟨h.consistent.loadFieldGeometry field, h.ksize, hsilent (fun _ => rfl) rfl⟩
  | updateGeometry fieldSize =>
    obtain ⟨rfl, -⟩ := Prod.mk.inj (Option.some.inj hstep)
    exact ⟨h.consistent.loadFieldGeometry fieldSize, h.ksize, hsilent (fun _ => rfl) rfl⟩

theorem step_total (scene : FieldScene) (c : SceneCall) (hrange : c.InRange) :
    ∃ next, scene.step c = some next := by
  cases c with
  | updateRobots detection =>
    have hsigned := toInt_cameraId hrange
    simp only [SceneCall.InRange] at hrange
    simp only [step, updateRobots, FieldScene.placeBalls]
    rw [if_pos (by omega)]
    exact ⟨_, rfl⟩
  | updateBalls balls cameraID =>
    simp only [SceneCall.InRange] at hrange
    simp only [step, updateBalls, FieldScene.placeBalls]
    rw [if_pos hrange]
    exact ⟨_, rfl⟩
  | updateField field => exact ⟨_, rfl⟩
  | updateGeometry fieldSize => exact ⟨_, rfl⟩

/-- After any calls with camera numbers in range the graphics scene holds what
the scene refers to, each item once; every camera's balls lie where the latest
call put them; and the two operations on balls agree. -/
theorem scene_consistent {calls : List SceneCall} (hrange : ∀ c ∈ calls, c.InRange) :
    ∃ scene outs, Machine.run step new calls = some (scene, outs) ∧
      scene.items.Perm scene.referred ∧ scene.items.Nodup ∧ LaidOut calls scene ∧
      ∀ detection, (scene.updateRobots detection).map FieldScene.ballItems =
        (scene.updateBalls (ballPositions detection) detection.cameraId.toInt).map
          (·.1.ballItems) := by
  obtain ⟨⟨scene, outs⟩, hrun⟩ := Machine.run_total_of step_total new hrange
  have hgood : Good calls scene := by
    refine Machine.run_induction_of (I := fun calls scene _ => Good calls scene)
      (C := fun _ c => c.InRange) ⟨consistent_new, rfl, fun _ => rfl⟩ ?_ ?_ hrun
    · intro earlier t outs c t' out hgood hc hstep
      exact hgood.step hc hstep
    · rintro earlier c later t outs rfl hrun
      exact hrange c (by simp)
  exact ⟨scene, outs, hrun, hgood.consistent.perm, hgood.consistent.nodup, hgood.laidOut,
    ballItems_updateRobots scene⟩

theorem scene_consistent_two_cameras :
    ∃ scene outs, Machine.run step new [.updateBalls [(.ofInt 100, 0)] 1, .updateField {},
        .updateBalls [] 0] = some (scene, outs) ∧
      scene.items.Perm scene.referred ∧ scene.items.Nodup ∧
      LaidOut [.updateBalls [(.ofInt 100, 0)] 1, .updateField {}, .updateBalls [] 0] scene ∧
      ∀ detection, (scene.updateRobots detection).map FieldScene.ballItems =
        (scene.updateBalls (ballPositions detection) detection.cameraId.toInt).map
          (·.1.ballItems) := by
  apply scene_consistent
  intro c hc
  simp only [List.mem_cons, List.not_mem_nil, or_false] at hc
  rcases hc with rfl | rfl | rfl
  · exact ⟨by decide, by decide⟩
  · trivial
  · exact ⟨by decide, by decide⟩

end LARCmaCS.FieldScene
