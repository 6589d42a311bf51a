import LARCmaCS.Double
import Mathlib.Data.Fin.VecNotation
import Mathlib.Data.Fintype.Pi
import Mathlib.Data.List.FinRange
import Mathlib.Data.List.Induction
import Mathlib.Logic.Function.Basic
import Mathlib.Tactic.FinCases

/-!
# The shared packet and the merge of a detection frame

`PacketSSL` of `packetSSL.h`, the detection messages of the wire schema, and
the part of `ReceiverWorker::run` that merges one detection frame into the
packet. A team's table has 12 rows, one per robot, and 4 columns stored one
after the other: presence, `x`, `y`, orientation.

Writing outside a table is undefined in the source; here the merge has no
result then.
-/

namespace LARCmaCS

-- ---------------------------------------------------------------------------
-- Messages
-- ---------------------------------------------------------------------------

structure SSLDetectionBall where
  x : Double
  y : Double
  deriving DecidableEq

structure SSLDetectionRobot where
  confidence : Double
  robotId? : Option (BitVec 32)
  x : Double
  y : Double
  orientation? : Option Double
  deriving DecidableEq

/-- The accessors give an absent optional field its default. -/
def SSLDetectionRobot.robotId (robot : SSLDetectionRobot) : BitVec 32 := robot.robotId?.getD 0

def SSLDetectionRobot.orientation (robot : SSLDetectionRobot) : Double := robot.orientation?.getD 0

structure SSLDetectionFrame where
  cameraId : BitVec 32
  balls : List SSLDetectionBall
  robotsYellow : List SSLDetectionRobot
  robotsBlue : List SSLDetectionRobot
  deriving DecidableEq

inductive Side | blue | yellow
  deriving DecidableEq

def SSLDetectionFrame.robots (detection : SSLDetectionFrame) : Side → List SSLDetectionRobot
  | .blue => detection.robotsBlue
  | .yellow => detection.robotsYellow

/-- `int idCam = detection.camera_id() + 1`: unsigned addition, then a
conversion to `int`. -/
def SSLDetectionFrame.idCam (detection : SSLDetectionFrame) : Int := (detection.cameraId + 1).toInt

-- ---------------------------------------------------------------------------
-- The packet
-- ---------------------------------------------------------------------------

abbrev Team := Fin 48 → Double

structure PacketSSL where
  robotsBlue : Team
  robotsYellow : Team
  balls : Fin 3 → Double
  deriving DecidableEq

namespace PacketSSL

def new : PacketSSL := ⟨fun _ => 0, fun _ => 0, fun _ => 0⟩

def robots (p : PacketSSL) : Side → Team
  | .blue => p.robotsBlue
  | .yellow => p.robotsYellow

def ballCamera (p : PacketSSL) : Double := p.balls 0

def ballPosition (p : PacketSSL) : List Double := [p.balls 1, p.balls 2]

end PacketSSL

/-- Entry of row `r` in column `c`: index `r`, `r + 12`, `r + 24`, `r + 36`. -/
def Team.cell (t : Team) (r : Fin 12) (c : Fin 4) : Double := t ⟨r + 12 * c, by omega⟩

-- ---------------------------------------------------------------------------
-- The merge
-- ---------------------------------------------------------------------------

def Team.write (t : Team) (k : BitVec 32) (v : Double) : Option Team :=
  if h : k.toNat < 48 then some (Function.update t ⟨k.toNat, h⟩ v) else none

def presence (i : Fin 12) : Fin 48 := i.castLE (by decide)

def clearTeam (idCam : Int) (t : Team) : Team :=
  (List.finRange 12).foldl
    (fun t i => if (t (presence i)).eqInt idCam then Function.update t (presence i) 0 else t) t

/-- One pass of the robot loop. The index arithmetic is unsigned. -/
def writeRobot (idCam : Int) (t : Team) (robot : SSLDetectionRobot) : Option Team := do
  let t ← t.write robot.robotId (.ofInt idCam)
  let t ← t.write (robot.robotId + 12) robot.x
  let t ← t.write (robot.robotId + 24) robot.y
  t.write (robot.robotId + 36) robot.orientation

def mergeTeam (idCam : Int) (t : Team) (robots : List SSLDetectionRobot) : Option Team :=
  robots.foldlM (writeRobot idCam) (clearTeam idCam t)

def mergeBalls (idCam : Int) (b : Fin 3 → Double) : List SSLDetectionBall → Fin 3 → Double
  | [] => Function.update b 0 0
  | ball :: _ =>
    let b := Function.update b 0 (.ofInt idCam)
    let b := Function.update b 1 ball.x
    Function.update b 2 ball.y

def mergeDetection (p : PacketSSL) (detection : SSLDetectionFrame) : Option PacketSSL := do
  let balls := mergeBalls detection.idCam p.balls detection.balls
  let robotsBlue ← mergeTeam detection.idCam p.robotsBlue detection.robotsBlue
  let robotsYellow ← mergeTeam detection.idCam p.robotsYellow detection.robotsYellow
  pure { robotsBlue, robotsYellow, balls }

-- ---------------------------------------------------------------------------
-- Reading the tables
-- ---------------------------------------------------------------------------

theorem Team.ext_cell {t u : Team} (h : ∀ r c, t.cell r c = u.cell r c) : t = u := by
  funext k
  have hk : (⟨(k % 12 : Nat) + 12 * (k / 12 : Nat), by omega⟩ : Fin 48) = k := by
    apply Fin.ext
    exact Nat.mod_add_div k 12
  simpa only [Team.cell, hk] using h ⟨k % 12, by omega⟩ ⟨k / 12, by omega⟩

def Team.setRow (t : Team) (r : Fin 12) (row : Fin 4 → Double) : Team :=
  fun k => if k.val % 12 = r then row ⟨k / 12, by omega⟩ else t k

@[simp] theorem Team.cell_setRow (t : Team) (r s : Fin 12) (row : Fin 4 → Double) (c : Fin 4) :
    (t.setRow r row).cell s c = if s = r then row c else t.cell s c := by
  have hmod : (s.val + 12 * c.val) % 12 = s := by omega
  have hdiv : (⟨(s.val + 12 * c.val) / 12, by omega⟩ : Fin 4) = c := by
    apply Fin.ext
    show (s.val + 12 * c.val) / 12 = c
    omega
  simp only [Team.setRow, Team.cell, hmod, hdiv, Fin.ext_iff]

def SSLDetectionRobot.row (idCam : Int) (robot : SSLDetectionRobot) : Fin 4 → Double :=
  ![.ofInt idCam, robot.x, robot.y, robot.orientation]

theorem Team.write_cell {k : BitVec 32} {r : Fin 12} {c : Fin 4} (hk : k.toNat = r + 12 * c)
    (t : Team) (v : Double) :
    ∃ u, t.write k v = some u ∧
      ∀ s d, Team.cell u s d = if s = r ∧ d = c then v else t.cell s d := by
  have hlt : k.toNat < 48 := by omega
  refine ⟨_, dif_pos hlt, fun s d => ?_⟩
  simp only [Team.cell, Function.update_apply, Fin.ext_iff, hk]
  congr 1
  apply propext
  omega

theorem writeRobot_of_lt {robot : SSLDetectionRobot} (h : robot.robotId.toNat < 12) (idCam : Int)
    (t : Team) :
    writeRobot idCam t robot = some (t.setRow ⟨robot.robotId.toNat, h⟩ (robot.row idCam)) := by
  let r : Fin 12 := ⟨robot.robotId.toNat, h⟩
  have index (c : Nat) (hc : c < 48) : (robot.robotId + BitVec.ofNat 32 c).toNat = r + c := by
    rw [BitVec.toNat_add, BitVec.toNat_ofNat]
    show _ = robot.robotId.toNat + c
    omega
  obtain ⟨t₀, h₀, hc₀⟩ := t.write_cell (r := r) (c := 0) rfl (.ofInt idCam)
  obtain ⟨t₁, h₁, hc₁⟩ := t₀.write_cell (r := r) (c := 1) (index 12 (by omega)) robot.x
  obtain ⟨t₂, h₂, hc₂⟩ := t₁.write_cell (r := r) (c := 2) (index 24 (by omega)) robot.y
  obtain ⟨t₃, h₃, hc₃⟩ := t₂.write_cell (r := r) (c := 3) (index 36 (by omega)) robot.orientation
  have hrun : writeRobot idCam t robot = some t₃ := by
    simp [writeRobot, h₀, h₁, h₂, h₃]
  rw [hrun]
  congr 1
  apply Team.ext_cell
  intro s d
  show _ = (t.setRow r (robot.row idCam)).cell s d
  rw [Team.cell_setRow, hc₃, hc₂, hc₁, hc₀]
  by_cases hs : s = r
  · fin_cases d <;> simp [hs, SSLDetectionRobot.row]
  · simp [hs]

theorem Team.lt_of_write {t u : Team} {k : BitVec 32} {v : Double} (h : t.write k v = some u) :
    k.toNat < 48 := by
  unfold Team.write at h
  split at h
  · assumption
  · cases h

/-- A robot id of 12 or more takes a write out of the table: the first one
from 48 on, the last one below. -/
theorem lt_of_writeRobot {robot : SSLDetectionRobot} {idCam : Int} {t u : Team}
    (h : writeRobot idCam t robot = some u) : robot.robotId.toNat < 12 := by
  simp only [writeRobot, Option.bind_eq_bind, Option.bind_eq_some_iff] at h
  obtain ⟨_, h₀, _, -, _, -, h₃⟩ := h
  have hfirst := Team.lt_of_write h₀
  have hlast := Team.lt_of_write h₃
  rw [BitVec.toNat_add] at hlast
  change (robot.robotId.toNat + 36) % 2 ^ 32 < 48 at hlast
  omega

-- ---------------------------------------------------------------------------
-- One team
-- ---------------------------------------------------------------------------

theorem foldl_clear_apply (idCam : Int) (l : List (Fin 12)) (t : Team) (k : Fin 48) :
    l.foldl (fun t i => if (t (presence i)).eqInt idCam then Function.update t (presence i) 0 else t)
      t k = if (∃ i ∈ l, presence i = k) ∧ t k = .ofInt idCam then 0 else t k := by
  induction l generalizing t with
  | nil => simp
  | cons i l ih =>
    rw [List.foldl_cons, ih]
    by_cases hk : presence i = k
    · subst hk
      by_cases ht : t (presence i) = .ofInt idCam <;> simp [ht]
    · by_cases ht : t (presence i) = .ofInt idCam <;> simp [ht, hk, Ne.symm hk]

theorem cell_clearTeam (idCam : Int) (t : Team) (r : Fin 12) (c : Fin 4) :
    (clearTeam idCam t).cell r c =
      if c = 0 ∧ t.cell r c = .ofInt idCam then 0 else t.cell r c := by
  rw [clearTeam, Team.cell, foldl_clear_apply]
  have hrow : (∃ i ∈ List.finRange 12, presence i = ⟨r + 12 * c, by omega⟩) ↔ c = 0 := by
    constructor
    · rintro ⟨i, -, hi⟩
      have hval : i.val = r + 12 * c := congrArg Fin.val hi
      omega
    · rintro rfl
      exact ⟨r, List.mem_finRange r, rfl⟩
  simp only [hrow]
  rfl

def lastDetection (robots : List SSLDetectionRobot) (r : Fin 12) : Option SSLDetectionRobot :=
  robots.reverse.find? fun robot => robot.robotId.toNat = r

@[simp] theorem lastDetection_append_singleton (robots : List SSLDetectionRobot)
    (robot : SSLDetectionRobot) (r : Fin 12) :
    lastDetection (robots ++ [robot]) r =
      if robot.robotId.toNat = r then some robot else lastDetection robots r := by
  by_cases h : robot.robotId.toNat = r <;> simp [lastDetection, h]

theorem foldlM_writeRobot {robots : List SSLDetectionRobot}
    (h : ∀ robot ∈ robots, robot.robotId.toNat < 12) (idCam : Int) (t : Team) :
    ∃ u, robots.foldlM (writeRobot idCam) t = some u ∧
      ∀ r c, Team.cell u r c =
        match lastDetection robots r with
        | some robot => robot.row idCam c
        | none => t.cell r c := by
  induction robots using List.reverseRecOn with
  | nil => exact ⟨t, rfl, fun r c => rfl⟩
  | append_singleton robots robot ih =>
    obtain ⟨u, hu, hcell⟩ := ih fun robot' hr => h robot' (by simp [hr])
    have hlt : robot.robotId.toNat < 12 := h robot (by simp)
    refine ⟨u.setRow ⟨robot.robotId.toNat, hlt⟩ (robot.row idCam), ?_, fun r c => ?_⟩
    · simp [hu, writeRobot_of_lt hlt]
    · rw [Team.cell_setRow, lastDetection_append_singleton, hcell]
      by_cases hr : robot.robotId.toNat = r
      · obtain rfl : r = ⟨robot.robotId.toNat, hlt⟩ := Fin.ext hr.symm
        simp
      · have hne : r ≠ ⟨robot.robotId.toNat, hlt⟩ := fun e => hr (by rw [e])
        simp [hr, hne]

end LARCmaCS
