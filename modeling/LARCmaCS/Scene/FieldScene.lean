import Mathlib.Algebra.Field.Rat
import Mathlib.Logic.Function.Iterate
import LARCmaCS.Lib.Machine
import LARCmaCS.Receiver

/-!
# The graphics scene

`FieldScene` of `fieldScene.h` and `fieldScene.cpp`: the robots and balls a
detection frame puts into the graphics scene, and the field that the geometry
redraws. Items are known by their kind and the number of items of that kind
made before; what they look like is left out, of the field's path all but the
geometry it is drawn from.

`placeRobots` and `placeBalls` are the two halves of `UpdateRobots`;
`UpdateBalls` repeats the second.
-/

namespace LARCmaCS

-- ---------------------------------------------------------------------------
-- Items
-- ---------------------------------------------------------------------------

def teamBlue : Int := 1
def teamYellow : Int := 2
def NA : Int := 0xffff
def NAOrientation : Double := .finite 1000

/-- The constant `M_PI`, which is a double. -/
def M_PI : Rat := 884279719003555 / 2 ^ 48

inductive Item
  | path (n : Nat)
  | robot (n : Nat)
  | ellipse (n : Nat)
  deriving DecidableEq

structure Robot where
  item : Item
  orientation : Double
  teamID : Int
  id : Int
  x : Double
  y : Double
  conf : Double
  /-- An `int`, compared as an unsigned one. -/
  key : BitVec 32
  robotLabel : String
  deriving DecidableEq

/-- The second hexadecimal digit of the lowest byte of `id`. -/
def Robot.hexLabel (id : Int) : String :=
  (String.singleton (Nat.digitChar (id % 16).toNat)).toUpper

def Robot.new (item : Item) (x y orientation : Double) (teamID id : Int) (key : BitVec 32)
    (conf : Double) : Robot where
  item
  conf
  key
  x := x.scale (1 / 10)
  y := y.scale (1 / 10)
  orientation
  teamID
  id
  robotLabel := if id ≠ NA then Robot.hexLabel id else "?"

def Robot.setPose (r : Robot) (x y orientation conf : Double) : Robot :=
  { r with x := x.scale (1 / 10), y := y.scale (1 / 10), orientation, conf }

structure BallItem where
  item : Item
  x : Double
  y : Double
  deriving DecidableEq

def BallItem.setPos (b : BallItem) (x y : Double) : BallItem := { b with x, y }

structure FieldGeometry where
  fieldLines : List SSLFieldLineSegment
  fieldArcs : List SSLFieldCicularArc
  lineWidth : Double
  fieldLength : Double
  fieldWidth : Double
  boundaryWidth : Double
  goalWidth : Double
  goalDepth : Double
  centerCircleRadius : Double
  penaltyAreaWidth : Double
  penaltyAreaDepth : Double
  deriving DecidableEq

def Side.team : Side → Int
  | .blue => teamBlue
  | .yellow => teamYellow

structure FieldScene where
  /-- The items in the graphics scene, in the order of their insertion. -/
  items : List Item
  robots : List Robot
  ballItems : List (List BallItem)
  geometry : FieldGeometry
  /-- The geometry `field` is drawn from. -/
  field : FieldGeometry
  fieldItem : Item
  ksize : Rat
  pathsMade : Nat
  robotsMade : Nat
  ellipsesMade : Nat

namespace FieldScene

def addItem (scene : FieldScene) (item : Item) : FieldScene :=
  { scene with items := scene.items ++ [item] }

def removeItem (scene : FieldScene) (item : Item) : FieldScene :=
  { scene with items := scene.items.erase item }

-- ---------------------------------------------------------------------------
-- The field
-- ---------------------------------------------------------------------------

/-- The constants of `field_default_constants.h`. -/
def defaultGeometry : FieldGeometry where
  fieldLines := []
  fieldArcs := []
  lineWidth := .ofInt 10
  fieldLength := .ofInt 12000
  fieldWidth := .ofInt 9000
  boundaryWidth := .ofInt 250
  goalWidth := .ofInt 1200
  goalDepth := .ofInt 180
  centerCircleRadius := .ofInt 500
  penaltyAreaDepth := .ofInt 1200
  penaltyAreaWidth := .ofInt 2400

def constructField (scene : FieldScene) : FieldScene := { scene with field := scene.geometry }

def addFieldItem (scene : FieldScene) : FieldScene :=
  { scene.addItem (.path scene.pathsMade) with
    fieldItem := .path scene.pathsMade
    pathsMade := scene.pathsMade + 1 }

def new : FieldScene :=
  let scene : FieldScene :=
    { items := []
      robots := []
      ballItems := []
      geometry := defaultGeometry
      field := defaultGeometry
      fieldItem := .path 0
      ksize := 10
      pathsMade := 0
      robotsMade := 0
      ellipsesMade := 0 }
  scene.constructField.addFieldItem

def loadFieldGeometry (scene : FieldScene) (fieldSize : SSLGeometryFieldSize) : FieldScene :=
  let scene := { scene with
    geometry :=
      { lineWidth := defaultGeometry.lineWidth
        fieldLines := fieldSize.fieldLines
        fieldArcs := fieldSize.fieldArcs
        fieldLength := .ofInt fieldSize.fieldLength
        fieldWidth := .ofInt fieldSize.fieldWidth
        boundaryWidth := .ofInt fieldSize.boundaryWidth
        goalWidth := .ofInt fieldSize.goalWidth
        goalDepth := .ofInt fieldSize.goalDepth
        penaltyAreaDepth := defaultGeometry.penaltyAreaDepth
        penaltyAreaWidth := defaultGeometry.penaltyAreaWidth
        centerCircleRadius := defaultGeometry.centerCircleRadius } }
  (scene.removeItem scene.fieldItem).constructField.addFieldItem

def updateField (scene : FieldScene) (field : SSLGeometryFieldSize) : FieldScene :=
  scene.loadFieldGeometry field

def updateGeometry (scene : FieldScene) (fieldSize : SSLGeometryFieldSize) : FieldScene :=
  scene.loadFieldGeometry fieldSize

-- ---------------------------------------------------------------------------
-- Robots
-- ---------------------------------------------------------------------------

def addRobot (scene : FieldScene) (robot : Robot) : FieldScene :=
  ({ scene with robots := scene.robots ++ [robot] }).addItem robot.item

/-- The robots that a frame of camera `cameraId` speaks of in its list for `side`. -/
def tracks (cameraId : BitVec 32) (side : Side) (r : Robot) : Bool :=
  r.key = cameraId ∧ r.teamID = side.team

def robotId (robot : SSLDetectionRobot) : Int :=
  match robot.robotId? with
  | some id => id.toInt
  | none => NA

/-- In degrees. -/
def robotOrientation (robot : SSLDetectionRobot) : Double :=
  match robot.orientation? with
  | some orientation => (orientation.scale 180).scale (1 / M_PI)
  | none => NAOrientation

def robotLabel (id : Int) : String := (if id ≠ NA then toString (id + 1) else "?").toUpper

def newRobot (cameraId : BitVec 32) (side : Side) (n : Nat) (robot : SSLDetectionRobot) : Robot :=
  .new (.robot n) robot.x robot.y.neg (robotOrientation robot) side.team (robotId robot) cameraId
    robot.confidence

def poseRobot (robot : SSLDetectionRobot) (r : Robot) : Robot :=
  let r := r.setPose robot.x robot.y.neg.neg (robotOrientation robot) robot.confidence
  let label := robotLabel (robotId robot)
  if label ≠ r.robotLabel then { r with robotLabel := label } else r

section poseRobot

variable (robot : SSLDetectionRobot) (r : Robot)

@[simp] theorem key_poseRobot : (poseRobot robot r).key = r.key := by
  unfold poseRobot
  dsimp only
  split <;> rfl

@[simp] theorem teamID_poseRobot : (poseRobot robot r).teamID = r.teamID := by
  unfold poseRobot
  dsimp only
  split <;> rfl

@[simp] theorem item_poseRobot : (poseRobot robot r).item = r.item := by
  unfold poseRobot
  dsimp only
  split <;> rfl

end poseRobot

structure RobotLoop where
  scene : FieldScene
  bluej : Nat
  yellowj : Nat

def RobotLoop.pass (cameraId : BitVec 32) (s : RobotLoop) : Side × SSLDetectionRobot → RobotLoop
  | (side, robot) =>
    let j := match side with
      | .blue => s.bluej
      | .yellow => s.yellowj
    let j := j + (s.scene.robots.drop j).findIdx (tracks cameraId side)
    let scene :=
      if j + 1 > s.scene.robots.length then
        { s.scene.addRobot (newRobot cameraId side s.scene.robotsMade robot) with
          robotsMade := s.scene.robotsMade + 1 }
      else s.scene
    let scene := { scene with robots := scene.robots.modify j (poseRobot robot) }
    match side with
    | .blue => { s with scene, bluej := j + 1 }
    | .yellow => { s with scene, yellowj := j + 1 }

def hideRobots (scene : FieldScene) (cameraId : BitVec 32) (side : Side) (j : Nat) : FieldScene :=
  { scene with
    robots := scene.robots.mapIdx fun i r =>
      if j ≤ i ∧ tracks cameraId side r then { r with conf := 0 } else r }

def placeRobots (scene : FieldScene) (detection : SSLDetectionFrame) : FieldScene :=
  let s := (detection.robotsBlue.map (Prod.mk Side.blue) ++
      detection.robotsYellow.map (Prod.mk Side.yellow)).foldl
    (RobotLoop.pass detection.cameraId) ⟨scene, 0, 0⟩
  (s.scene.hideRobots detection.cameraId .blue s.bluej).hideRobots detection.cameraId .yellow s.yellowj

-- ---------------------------------------------------------------------------
-- Balls
-- ---------------------------------------------------------------------------

def appendBall (cam : Nat) (scene : FieldScene) : FieldScene :=
  { scene.addItem (.ellipse scene.ellipsesMade) with
    ballItems := scene.ballItems.modify cam (· ++ [⟨.ellipse scene.ellipsesMade, 0, 0⟩])
    ellipsesMade := scene.ellipsesMade + 1 }

def removeBall (cam : Nat) (scene : FieldScene) : FieldScene :=
  match scene.ballItems[cam]? with
  | some (ball :: _) =>
    { scene.removeItem ball.item with ballItems := scene.ballItems.modify cam List.tail }
  | _ => scene

def camera (scene : FieldScene) (cam : Nat) : List BallItem := scene.ballItems[cam]?.getD []

def ballPos (ksize : Rat) (ball : Double × Double) : Double × Double :=
  ((ball.1.scale (1 / ksize)).sub 6, (ball.2.scale (1 / ksize)).sub 6)

def addCameras (scene : FieldScene) (cam : Nat) : FieldScene :=
  { scene with
    ballItems := scene.ballItems ++ List.replicate (cam + 1 - scene.ballItems.length) [] }

def resizeBalls (scene : FieldScene) (cam size : Nat) : FieldScene :=
  let n := (scene.camera cam).length
  if n < size then (appendBall cam)^[size - n] scene
  else if n > size then (removeBall cam)^[n - size] scene
  else scene

def moveBall (ksize : Rat) (balls : List (Double × Double)) (i : Nat) (item : BallItem) : BallItem :=
  match balls[i]? with
  | some ball => item.setPos (ballPos ksize ball).1 (ballPos ksize ball).2
  | none => item

def setBalls (scene : FieldScene) (cam : Nat) (balls : List (Double × Double)) : FieldScene :=
  { scene with
    ballItems := scene.ballItems.modify cam (List.mapIdx (moveBall scene.ksize balls)) }

/-- Both copies of the loops over a camera's ball items. There is no result
for a negative camera number, and for the largest `int`, whose successor is
taken. -/
def placeBalls (scene : FieldScene) (balls : List (Double × Double)) (cameraID : Int) :
    Option FieldScene :=
  if 0 ≤ cameraID ∧ cameraID < 2147483647 then
    let cam := cameraID.toNat
    some (((scene.addCameras cam).resizeBalls cam balls.length).setBalls cam balls)
  else none

/-- Returns the number of the camera's ball items. -/
def updateBalls (scene : FieldScene) (balls : List (Double × Double)) (cameraID : Int) :
    Option (FieldScene × Nat) :=
  (scene.placeBalls balls cameraID).map fun scene => (scene, (scene.camera cameraID.toNat).length)

def ballPositions (detection : SSLDetectionFrame) : List (Double × Double) :=
  detection.balls.map fun ball => (ball.x, ball.y)

def updateRobots (scene : FieldScene) (detection : SSLDetectionFrame) : Option FieldScene :=
  (scene.placeRobots detection).placeBalls (ballPositions detection) detection.cameraId.toInt

end FieldScene

end LARCmaCS
