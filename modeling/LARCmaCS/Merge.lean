import LARCmaCS.Lib.Sighting
import LARCmaCS.PacketSSL

/-!
# What the merged packet says

Three readings of the merge step of `ReceiverWorker::run`. Over a stream of
regular frames every robot's row shows the latest sighting of that robot, as
`Sighting.view` has it (`mergeAll_shows`). A frame is merged inside the
tables exactly when every robot in it carries an id below 12
(`confined_iff`). And `isolated_iff` says when a frame leaves alone what
other cameras reported.
-/

namespace LARCmaCS

def SSLDetectionRobot.Listed (robot : SSLDetectionRobot) : Prop :=
  ∃ id, robot.robotId? = some id ∧ id.toNat < 12

theorem SSLDetectionRobot.Listed.lt {robot : SSLDetectionRobot} (h : robot.Listed) :
    robot.robotId.toNat < 12 := by
  obtain ⟨id, hid, hlt⟩ := h
  simpa [SSLDetectionRobot.robotId, hid] using hlt

def mergeAll (p : PacketSSL) (detections : List SSLDetectionFrame) : Option PacketSSL :=
  detections.foldlM mergeDetection p

-- ---------------------------------------------------------------------------
-- One frame
-- ---------------------------------------------------------------------------

def rowAfter (idCam : Int) (t : Team) (robots : List SSLDetectionRobot) (r : Fin 12) (c : Fin 4) :
    Double :=
  match lastDetection robots r with
  | some robot => robot.row idCam c
  | none => if c = 0 ∧ t.cell r c = .ofInt idCam then 0 else t.cell r c

theorem mergeTeam_ok {robots : List SSLDetectionRobot}
    (h : ∀ robot ∈ robots, robot.robotId.toNat < 12) (idCam : Int) (t : Team) :
    ∃ u, mergeTeam idCam t robots = some u ∧ ∀ r c, Team.cell u r c = rowAfter idCam t robots r c := by
  obtain ⟨u, hu, hcell⟩ := foldlM_writeRobot h idCam (clearTeam idCam t)
  refine ⟨u, hu, fun r c => ?_⟩
  rw [hcell, cell_clearTeam]
  rfl

theorem foldlM_writeRobot_lt {robots : List SSLDetectionRobot} {idCam : Int} {t u : Team}
    (h : robots.foldlM (writeRobot idCam) t = some u) :
    ∀ robot ∈ robots, robot.robotId.toNat < 12 := by
  induction robots generalizing t with
  | nil => simp
  | cons robot robots ih =>
    simp only [List.foldlM_cons, Option.bind_eq_bind, Option.bind_eq_some_iff] at h
    obtain ⟨w, hw, hrest⟩ := h
    intro robot' hr
    rcases List.mem_cons.mp hr with rfl | hr
    · exact lt_of_writeRobot hw
    · exact ih hrest robot' hr

theorem mergeDetection_eq_some {p p' : PacketSSL} {detection : SSLDetectionFrame} :
    mergeDetection p detection = some p' ↔
      p'.balls = mergeBalls detection.idCam p.balls detection.balls ∧
        ∀ side, mergeTeam detection.idCam (p.robots side) (detection.robots side) =
          some (p'.robots side) := by
  simp only [mergeDetection, Option.bind_eq_bind, Option.bind_eq_some_iff, Option.pure_def,
    Option.some.injEq]
  constructor
  · rintro ⟨blue, hblue, yellow, hyellow, rfl⟩
    refine ⟨rfl, fun side => ?_⟩
    cases side with
    | blue => exact hblue
    | yellow => exact hyellow
  · rintro ⟨hballs, hteam⟩
    exact ⟨_, hteam .blue, _, hteam .yellow, by cases p'; simp_all [PacketSSL.robots]⟩

theorem mergeDetection_ok {detection : SSLDetectionFrame}
    (h : ∀ side, ∀ robot ∈ detection.robots side, robot.robotId.toNat < 12) (p : PacketSSL) :
    ∃ p', mergeDetection p detection = some p' ∧
      p'.balls = mergeBalls detection.idCam p.balls detection.balls ∧
      ∀ side r c, (p'.robots side).cell r c =
        rowAfter detection.idCam (p.robots side) (detection.robots side) r c := by
  obtain ⟨blue, hblue, hbcell⟩ := mergeTeam_ok (h .blue) detection.idCam (p.robots .blue)
  obtain ⟨yellow, hyellow, hycell⟩ := mergeTeam_ok (h .yellow) detection.idCam (p.robots .yellow)
  refine ⟨⟨blue, yellow, mergeBalls detection.idCam p.balls detection.balls⟩,
    mergeDetection_eq_some.mpr ⟨rfl, fun side => ?_⟩, rfl, fun side => ?_⟩
  · cases side with
    | blue => exact hblue
    | yellow => exact hyellow
  · cases side with
    | blue => exact hbcell
    | yellow => exact hycell

theorem lt_of_mergeDetection {p p' : PacketSSL} {detection : SSLDetectionFrame}
    (h : mergeDetection p detection = some p') (side : Side) :
    ∀ robot ∈ detection.robots side, robot.robotId.toNat < 12 :=
  foldlM_writeRobot_lt ((mergeDetection_eq_some.mp h).2 side)

-- ---------------------------------------------------------------------------
-- Streams of regular frames
-- ---------------------------------------------------------------------------

/-- Every robot has a row of its own, and the camera's number fits a
positive `int`. -/
structure SSLDetectionFrame.Regular (detection : SSLDetectionFrame) : Prop where
  listed : ∀ side, ∀ robot ∈ detection.robots side, robot.Listed
  camera : detection.cameraId.toNat + 1 < 2 ^ 31

theorem SSLDetectionFrame.Regular.idCam {detection : SSLDetectionFrame} (h : detection.Regular) :
    detection.idCam = detection.cameraId.toNat + 1 := by
  have hcamera := h.camera
  have hsum : (detection.cameraId + 1).toNat = detection.cameraId.toNat + 1 := by
    rw [BitVec.toNat_add]
    change (detection.cameraId.toNat + 1) % 2 ^ 32 = _
    omega
  rw [SSLDetectionFrame.idCam, BitVec.toInt_eq_toNat_cond, hsum, if_pos (by omega)]
  rfl

def SSLDetectionFrame.report (side : Side) (r : Fin 12) (detection : SSLDetectionFrame) :
    BitVec 32 × Option SSLDetectionRobot :=
  (detection.cameraId, lastDetection (detection.robots side) r)

/-- A row shows a sighting: the camera's number while the sighting stands,
and the pose. -/
def Team.Shows (t : Team) (r : Fin 12) : Option (Sighting.View (BitVec 32) SSLDetectionRobot) → Prop
  | none => t.cell r 0 = 0
  | some v =>
    v.observer.toNat + 1 < 2 ^ 31 ∧
      t.cell r 0 = (if v.present then .ofInt (v.observer.toNat + 1) else 0) ∧
      t.cell r 1 = v.obs.x ∧ t.cell r 2 = v.obs.y ∧ t.cell r 3 = v.obs.orientation

theorem rowAfter_shows {detection : SSLDetectionFrame} (hreg : detection.Regular) {side : Side}
    {t u : Team} {r : Fin 12} {v : Option (Sighting.View (BitVec 32) SSLDetectionRobot)}
    (ht : t.Shows r v)
    (hu : ∀ c, u.cell r c = rowAfter detection.idCam t (detection.robots side) r c) :
    u.Shows r (Sighting.step v (detection.report side r)) := by
  simp only [rowAfter, hreg.idCam] at hu
  cases hlast : lastDetection (detection.robots side) r with
  | some robot =>
    simp only [hlast] at hu
    simp only [SSLDetectionFrame.report, hlast, Sighting.step, Team.Shows]
    exact ⟨hreg.camera, hu 0, hu 1, hu 2, hu 3⟩
  | none =>
    simp only [hlast] at hu
    simp only [SSLDetectionFrame.report, hlast, Sighting.step]
    cases v with
    | none =>
      have h0 : t.cell r 0 = 0 := ht
      simp [Team.Shows, hu, h0]
    | some v =>
      obtain ⟨hcam, h0, h1, h2, h3⟩ := ht
      have hpose : ∀ w : Sighting.View (BitVec 32) SSLDetectionRobot, w.obs = v.obs →
          u.cell r 1 = w.obs.x ∧ u.cell r 2 = w.obs.y ∧ u.cell r 3 = w.obs.orientation := by
        intro w hw
        simp [hu, hw, h1, h2, h3]
      by_cases hobs : v.observer = detection.cameraId
      · -- The camera that saw the robot last does not see it any more.
        have htag : u.cell r 0 = 0 := by
          rw [hu 0, h0, hobs]
          cases v.present <;> simp
        simp only [Option.map_some, Sighting.View.report, hobs, if_true]
        exact ⟨hobs ▸ hcam, htag, hpose _ rfl⟩
      · have hne : (v.observer.toNat : Int) ≠ detection.cameraId.toNat :=
          fun e => hobs (BitVec.eq_of_toNat_eq (Int.ofNat_inj.mp e))
        have htag : u.cell r 0 = t.cell r 0 := by
          rw [hu 0, h0]
          cases v.present <;> simp [hne]
        simp only [Option.map_some, Sighting.View.report, hobs, if_false]
        exact ⟨hcam, htag.trans h0, hpose _ rfl⟩

theorem mergeAll_append_singleton (p : PacketSSL) (detections : List SSLDetectionFrame)
    (detection : SSLDetectionFrame) :
    mergeAll p (detections ++ [detection]) =
      (mergeAll p detections).bind fun p' => mergeDetection p' detection := by
  cases h : detections.foldlM mergeDetection p <;> simp [mergeAll, h]

theorem mergeAll_shows {detections : List SSLDetectionFrame} (h : ∀ d ∈ detections, d.Regular) :
    ∃ p, mergeAll .new detections = some p ∧
      ∀ side r, (p.robots side).Shows r (Sighting.view (detections.map (·.report side r))) := by
  induction detections using List.reverseRecOn with
  | nil =>
    refine ⟨.new, rfl, fun side r => ?_⟩
    cases side <;> rfl
  | append_singleton detections detection ih =>
    obtain ⟨p, hp, hshows⟩ := ih fun d hd => h d (by simp [hd])
    have hreg : detection.Regular := h detection (by simp)
    obtain ⟨p', hp', -, hrow⟩ :=
      mergeDetection_ok (fun side robot hr => (hreg.listed side robot hr).lt) p
    refine ⟨p', by rw [mergeAll_append_singleton, hp]; exact hp', fun side r => ?_⟩
    rw [List.map_append, List.map_singleton, Sighting.view_append_singleton]
    exact rowAfter_shows hreg (hshows side r) (hrow side r)

def SSLDetectionFrame.Reports (detection : SSLDetectionFrame) (side : Side) (r : Fin 12) : Prop :=
  ∃ robot ∈ detection.robots side, robot.robotId? = some (BitVec.ofNat 32 r)

theorem lastDetection_eq_none {robots : List SSLDetectionRobot} {r : Fin 12} :
    lastDetection robots r = none ↔ ∀ robot ∈ robots, robot.robotId.toNat ≠ r := by
  simp [lastDetection]

theorem SSLDetectionFrame.Regular.lastDetection_eq_none {detection : SSLDetectionFrame}
    (h : detection.Regular) {side : Side} {r : Fin 12} :
    lastDetection (detection.robots side) r = none ↔ ¬ detection.Reports side r := by
  have hid : ∀ robot ∈ detection.robots side,
      robot.robotId.toNat = r ↔ robot.robotId? = some (BitVec.ofNat 32 r) := by
    intro robot hr
    obtain ⟨id, hid, -⟩ := h.listed side robot hr
    have hofNat : (BitVec.ofNat 32 r.val).toNat = r := by
      rw [BitVec.toNat_ofNat]
      omega
    rw [SSLDetectionRobot.robotId, hid, Option.getD_some, Option.some.injEq, ← BitVec.toNat_inj,
      hofNat]
  rw [LARCmaCS.lastDetection_eq_none, SSLDetectionFrame.Reports]
  push Not
  exact forall₂_congr fun robot hr => not_congr (hid robot hr)

/-- The closed form of a robot's row after any stream of regular frames: `f`
is the latest frame that reports the robot, `robot` its last detection there. -/
theorem mergeAll_closed_form (detections : List SSLDetectionFrame)
    (h : ∀ d ∈ detections, d.Regular) :
    ∃ p, mergeAll .new detections = some p ∧ ∀ side r,
      ((∀ d ∈ detections, ¬ d.Reports side r) → (p.robots side).cell r 0 = 0) ∧
      ∀ earlier f later, detections = earlier ++ f :: later → f.Reports side r →
        (∀ d ∈ later, ¬ d.Reports side r) →
        ∃ robot, lastDetection (f.robots side) r = some robot ∧
          (p.robots side).cell r 0 = (if ∃ d ∈ later, d.cameraId = f.cameraId then 0
            else .ofInt (f.cameraId.toNat + 1)) ∧
          (p.robots side).cell r 1 = robot.x ∧ (p.robots side).cell r 2 = robot.y ∧
          (p.robots side).cell r 3 = robot.orientation := by
  obtain ⟨p, hp, hshows⟩ := mergeAll_shows h
  refine ⟨p, hp, fun side r => ⟨fun hnone => ?_, ?_⟩⟩
  · have hview : Sighting.view (detections.map (·.report side r)) = none := by
      refine Sighting.view_eq_none fun report hr => ?_
      obtain ⟨d, hd, rfl⟩ := List.mem_map.mp hr
      exact (h d hd).lastDetection_eq_none.mpr (hnone d hd)
    have hrow := hshows side r
    rw [hview] at hrow
    exact hrow
  · rintro earlier f later rfl hf hlater
    obtain ⟨robot, hrobot⟩ : ∃ robot, lastDetection (f.robots side) r = some robot := by
      rw [← Option.ne_none_iff_exists']
      exact fun hnone => (h f (by simp)).lastDetection_eq_none.mp hnone hf
    have hreport : f.report side r = (f.cameraId, some robot) := by
      rw [SSLDetectionFrame.report, hrobot]
    have hview := Sighting.view_latest (earlier.map (·.report side r)) (later.map (·.report side r))
      f.cameraId robot (by
        intro report hr
        obtain ⟨d, hd, rfl⟩ := List.mem_map.mp hr
        exact (h d (by simp [hd])).lastDetection_eq_none.mpr (hlater d hd))
    have hrow := hshows side r
    rw [List.map_append, List.map_cons, hreport, hview] at hrow
    obtain ⟨-, htag, hx, hy, ho⟩ := hrow
    refine ⟨robot, hrobot, ?_, hx, hy, ho⟩
    rw [htag]
    by_cases hagain : ∃ d ∈ later, d.cameraId = f.cameraId
    · obtain ⟨d, hd, hcam⟩ := hagain
      have hseen : ¬ ∀ report ∈ later.map (·.report side r), report.1 ≠ f.cameraId :=
        fun hall => hall (d.report side r) (List.mem_map.mpr ⟨d, hd, rfl⟩) hcam
      rw [if_neg (by simpa using hseen), if_pos ⟨d, hd, hcam⟩]
    · have hseen : ∀ report ∈ later.map (·.report side r), report.1 ≠ f.cameraId := by
        intro report hr hcam
        obtain ⟨d, hd, rfl⟩ := List.mem_map.mp hr
        exact hagain ⟨d, hd, hcam⟩
      rw [if_pos (by simpa using hseen), if_neg hagain]

theorem mergeAll_closed_form_takeover :
    let seen (x : Double) : SSLDetectionRobot := ⟨0, some 3, x, 0, none⟩
    let first : SSLDetectionFrame := ⟨0, [], [], [seen (.ofInt 7), seen (.ofInt 8)]⟩
    let second : SSLDetectionFrame := ⟨1, [], [], [seen (.ofInt 9)]⟩
    ∃ p, mergeAll .new [first, second] = some p ∧
      (p.robots .blue).cell 3 0 = .ofInt 2 ∧ (p.robots .blue).cell 3 1 = .ofInt 9 := by
  intro seen first second
  have hreg : ∀ d ∈ [first, second], d.Regular := by
    intro d hd
    have hlisted : ∀ x, (seen x).Listed := fun x => ⟨3, rfl, by decide⟩
    rcases List.mem_pair.mp hd with rfl | rfl <;> refine ⟨fun side => ?_, by decide⟩ <;>
      cases side <;> simp [SSLDetectionFrame.robots, first, second, hlisted]
  obtain ⟨p, hp, hclosed⟩ := mergeAll_closed_form [first, second] hreg
  obtain ⟨robot, hrobot, htag, hx, -, -⟩ :=
    (hclosed .blue 3).2 [first] second [] rfl ⟨seen (.ofInt 9), by decide, rfl⟩ (by simp)
  have hlast : lastDetection (second.robots .blue) 3 = some (seen (.ofInt 9)) := rfl
  obtain rfl : seen (.ofInt 9) = robot := Option.some.inj (hlast.symm.trans hrobot)
  exact ⟨p, hp, by simpa [second] using htag, hx⟩

-- ---------------------------------------------------------------------------
-- Writes stay in their row
-- ---------------------------------------------------------------------------

/-- Merging the frame writes inside the tables only; a detection with an id
writes to the four entries of its row, one without an id changes nothing, and
neither touches the other team. -/
structure Confined (detection : SSLDetectionFrame) : Prop where
  inBounds : ∀ p, ∃ p', mergeDetection p detection = some p'
  ownTeam : ∀ p p', mergeDetection p detection = some p' → ∀ side,
    mergeTeam detection.idCam (p.robots side) (detection.robots side) = some (p'.robots side)
  ownRow : ∀ side, ∀ robot ∈ detection.robots side, ∀ id, robot.robotId? = some id →
    ∃ r : Fin 12, id.toNat = r ∧ ∀ t u, writeRobot detection.idCam t robot = some u →
      ∀ k, u k ≠ t k → ∃ c : Fin 4, k.val = r + 12 * c
  noRow : ∀ side, ∀ robot ∈ detection.robots side, robot.robotId? = none →
    ∀ t u, writeRobot detection.idCam t robot = some u → u = t

theorem writeRobot_frame {robot : SSLDetectionRobot} (h : robot.robotId.toNat < 12) {idCam : Int}
    {t u : Team} (hu : writeRobot idCam t robot = some u) {k : Fin 48} (hk : u k ≠ t k) :
    ∃ c : Fin 4, k.val = robot.robotId.toNat + 12 * c := by
  rw [writeRobot_of_lt h, Option.some.injEq] at hu
  subst hu
  refine ⟨⟨k / 12, by omega⟩, ?_⟩
  by_cases hrow : k.val % 12 = robot.robotId.toNat
  · show k.val = robot.robotId.toNat + 12 * (k.val / 12)
    omega
  · simp [Team.setRow, hrow] at hk

/-- A frame is merged as its rows suggest exactly when every robot in it
carries an id below 12. -/
theorem confined_iff (detection : SSLDetectionFrame) :
    Confined detection ↔ ∀ side, ∀ robot ∈ detection.robots side, robot.Listed := by
  constructor
  · intro h side robot hr
    have hlt : robot.robotId.toNat < 12 := by
      obtain ⟨p', hp'⟩ := h.inBounds .new
      exact lt_of_mergeDetection hp' side robot hr
    cases hid : robot.robotId? with
    | some id => exact ⟨id, hid, by simpa [SSLDetectionRobot.robotId, hid] using hlt⟩
    | none =>
      -- Without an id the default 0 is written: row 0 of some table changes.
      exfalso
      let t : Team := fun _ => .nan
      have hwrite := writeRobot_of_lt hlt detection.idCam t
      have hsame := h.noRow side robot hr hid t _ hwrite
      have hcell := congrArg (fun u : Team => u.cell ⟨robot.robotId.toNat, hlt⟩ 0) hsame
      simp only [Team.cell_setRow, if_true] at hcell
      cases hcell
  · intro h
    refine ⟨fun p => ?_, fun p p' hp => (mergeDetection_eq_some.mp hp).2, ?_, ?_⟩
    · obtain ⟨p', hp', -⟩ := mergeDetection_ok (fun side robot hr => (h side robot hr).lt) p
      exact ⟨p', hp'⟩
    · intro side robot hr id hid
      have hlt := (h side robot hr).lt
      have hrobotId : robot.robotId = id := by simp [SSLDetectionRobot.robotId, hid]
      rw [hrobotId] at hlt
      refine ⟨⟨id.toNat, hlt⟩, rfl, fun t u hu k hk => ?_⟩
      obtain ⟨c, hc⟩ := writeRobot_frame (hrobotId ▸ hlt) hu hk
      exact ⟨c, by rw [hc, hrobotId]⟩
    · intro side robot hr hnone
      obtain ⟨id, hid, -⟩ := h side robot hr
      rw [hnone] at hid
      cases hid

theorem not_confined_id_twelve :
    ¬ Confined ⟨0, [], [], [⟨0, some 12, 0, 0, none⟩]⟩ := by
  intro h
  obtain ⟨p', hp'⟩ := h.inBounds .new
  have hnone : mergeDetection .new ⟨0, [], [], [⟨0, some 12, 0, 0, none⟩]⟩ = none := by decide
  rw [hnone] at hp'
  cases hp'

-- ---------------------------------------------------------------------------
-- Cameras do not withdraw each other's objects
-- ---------------------------------------------------------------------------

inductive Object
  | robot (side : Side) (r : Fin 12)
  | ball

def PacketSSL.tag (p : PacketSSL) : Object → Double
  | .robot side r => (p.robots side).cell r 0
  | .ball => p.ballCamera

def PacketSSL.coordinates (p : PacketSSL) : Object → List Double
  | .robot side r => [(p.robots side).cell r 1, (p.robots side).cell r 2, (p.robots side).cell r 3]
  | .ball => p.ballPosition

def SSLDetectionFrame.Detects (detection : SSLDetectionFrame) : Object → Prop
  | .robot side r => detection.Reports side r
  | .ball => detection.balls ≠ []

def PacketSSL.TaggedByOther (p : PacketSSL) (idCam : Int) (o : Object) : Prop :=
  p.tag o ≠ 0 ∧ p.tag o ≠ .ofInt idCam

/-- Merging the frame is defined and leaves alone every object that another
camera reported and this frame does not detect. -/
def Isolated (p : PacketSSL) (detection : SSLDetectionFrame) : Prop :=
  ∃ p', mergeDetection p detection = some p' ∧
    ∀ o, p.TaggedByOther detection.idCam o → ¬ detection.Detects o →
      p'.tag o = p.tag o ∧ p'.coordinates o = p.coordinates o

/-- Ids are in range, a frame without a ball meets no other camera's ball, and
a robot without an id meets no other camera's robot 0. -/
structure Separated (p : PacketSSL) (detection : SSLDetectionFrame) : Prop where
  ids : ∀ side, ∀ robot ∈ detection.robots side, robot.robotId.toNat < 12
  ball : detection.balls = [] → ¬ p.TaggedByOther detection.idCam .ball
  robotZero : ∀ side, (∃ robot ∈ detection.robots side, robot.robotId? = none) →
    ¬ detection.Reports side 0 → ¬ p.TaggedByOther detection.idCam (.robot side 0)

theorem rowAfter_none {robots : List SSLDetectionRobot} {r : Fin 12} {idCam : Int} {t : Team}
    (hlast : lastDetection robots r = none) (htag : t.cell r 0 ≠ .ofInt idCam) (c : Fin 4) :
    rowAfter idCam t robots r c = t.cell r c := by
  simp only [rowAfter, hlast]
  by_cases hc : c = 0
  · subst hc
    simp [htag]
  · simp [hc]

theorem reports_or_missing {robots : List SSLDetectionRobot} {r : Fin 12}
    {robot : SSLDetectionRobot} (hlast : lastDetection robots r = some robot) :
    robot ∈ robots ∧ (robot.robotId? = some (BitVec.ofNat 32 r) ∨ robot.robotId? = none ∧ r = 0) := by
  have hmem : robot ∈ robots := by simpa using List.mem_of_find?_eq_some hlast
  have hid : robot.robotId.toNat = r := by simpa using List.find?_some hlast
  refine ⟨hmem, ?_⟩
  cases hopt : robot.robotId? with
  | some id =>
    left
    rw [SSLDetectionRobot.robotId, hopt, Option.getD_some] at hid
    rw [← hid, BitVec.ofNat_toNat, BitVec.setWidth_eq]
  | none =>
    right
    rw [SSLDetectionRobot.robotId, hopt, Option.getD_none] at hid
    exact ⟨rfl, Fin.ext hid.symm⟩

theorem isolated_of_separated {p : PacketSSL} {detection : SSLDetectionFrame}
    (h : Separated p detection) : Isolated p detection := by
  obtain ⟨p', hp', hballs, hrow⟩ := mergeDetection_ok h.ids p
  refine ⟨p', hp', fun o ho hdet => ?_⟩
  cases o with
  | ball =>
    have hempty : detection.balls = [] := by simpa [SSLDetectionFrame.Detects] using hdet
    exact absurd ho (h.ball hempty)
  | robot side r =>
    have hlast : lastDetection (detection.robots side) r = none := by
      cases hl : lastDetection (detection.robots side) r with
      | none => rfl
      | some robot =>
        obtain ⟨hmem, hid | ⟨hnone, rfl⟩⟩ := reports_or_missing hl
        · exact absurd ⟨robot, hmem, hid⟩ hdet
        · exact absurd ho (h.robotZero side ⟨robot, hmem, hnone⟩ hdet)
    have hsame (c : Fin 4) : (p'.robots side).cell r c = (p.robots side).cell r c :=
      (hrow side r c).trans (rowAfter_none hlast ho.2 c)
    exact ⟨hsame 0, by simp [PacketSSL.coordinates, hsame]⟩

/-- The condition under which a camera withdraws nothing that another camera
reported, for every packet, reachable or not. -/
theorem isolated_iff (p : PacketSSL) (detection : SSLDetectionFrame) :
    Isolated p detection ↔ Separated p detection := by
  refine ⟨fun ⟨p', hp', hkeep⟩ => ?_, isolated_of_separated⟩
  obtain ⟨p'', hp'', hballs, hrow⟩ := mergeDetection_ok (lt_of_mergeDetection hp') p
  obtain rfl : p' = p'' := Option.some.inj (hp'.symm.trans hp'')
  refine ⟨lt_of_mergeDetection hp', fun hempty hother => ?_, fun side hmissing hreports hother => ?_⟩
  · have hkept := (hkeep .ball hother (by simpa [SSLDetectionFrame.Detects] using hempty)).1
    have hcleared : p'.tag .ball = 0 := by
      simp [PacketSSL.tag, PacketSSL.ballCamera, hballs, hempty, mergeBalls]
    exact hother.1 (hkept.symm.trans hcleared)
  · -- The detection without an id has written this camera's number into row 0.
    have hkept := (hkeep (.robot side 0) hother hreports).1
    obtain ⟨robot, hmem, hnone⟩ := hmissing
    have hzero : robot.robotId.toNat = (0 : Fin 12) := by
      simp [SSLDetectionRobot.robotId, hnone]
    obtain ⟨last, hlast⟩ : ∃ last, lastDetection (detection.robots side) 0 = some last := by
      rw [← Option.ne_none_iff_exists']
      exact fun hl => lastDetection_eq_none.mp hl robot hmem hzero
    have htag : p'.tag (.robot side 0) = .ofInt detection.idCam := by
      rw [PacketSSL.tag, hrow, rowAfter, hlast]
      rfl
    exact hother.2 (hkept.symm.trans htag)

theorem not_isolated_second_camera :
    let first : SSLDetectionFrame := ⟨0, [⟨.ofInt 5, .ofInt 6⟩], [], []⟩
    let second : SSLDetectionFrame := ⟨1, [], [], []⟩
    ∃ p, mergeAll .new [first] = some p ∧ ¬ Isolated p second := by
  intro first second
  have noRobots (d : SSLDetectionFrame) (hd : d = first ∨ d = second) (side : Side) :
      ∀ robot ∈ d.robots side, robot.robotId.toNat < 12 := by
    rcases hd with rfl | rfl <;> cases side <;> simp [SSLDetectionFrame.robots, first, second]
  obtain ⟨p, hp, hballs, -⟩ := mergeDetection_ok (noRobots first (.inl rfl)) .new
  have htag : p.tag .ball = .ofInt 1 := by
    rw [PacketSSL.tag, PacketSSL.ballCamera, hballs]
    decide
  refine ⟨p, by simp [mergeAll, hp], fun ⟨p', hp', hkeep⟩ => ?_⟩
  have hcleared : p'.tag .ball = 0 := by
    rw [PacketSSL.tag, PacketSSL.ballCamera, (mergeDetection_eq_some.mp hp').1]
    rfl
  have hother : p.TaggedByOther second.idCam .ball := by
    rw [PacketSSL.TaggedByOther, htag]
    decide
  have hkept := (hkeep .ball hother (by simp [SSLDetectionFrame.Detects, second])).1
  exact hother.1 (hkept.symm.trans hcleared)

end LARCmaCS
