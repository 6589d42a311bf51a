import LARCmaCS.CMPattern.Chain
import LARCmaCS.CMPattern.Duplicates
import LARCmaCS.CMPattern.Matching
import LARCmaCS.CMPattern.Team
import LARCmaCS.CMVision.Filter
import LARCmaCS.NKDTree.Scan
import Mathlib.Analysis.SpecialFunctions.Complex.Arg

/-!
# Robots by their patterns

`TeamDetector::findRobotsByModel`: around every centre marker of the team's
colour the region tree gives the nearest regions, those that may be markers are
compared with the patterns, and a pattern that fits makes a robot. Numbers are
exact. `findRobotsByModel_eq` says which robots are reported and
`reported_sound` why each of them is.
-/

namespace LARCmaCS.CMPattern

open CMVision (Raw8 Region RegionFilter)
open CMVision.RegionFilter (box)
open NKDTree (ExactSqrt NVector PriorityQueue)

-- ---------------------------------------------------------------------------
-- Colours in use
-- ---------------------------------------------------------------------------

def ColorsUsed.isUsed (u : ColorsUsed) (color_id : Raw8) : Bool :=
  if color_id.toNat ≥ u.n then false else u.used color_id.toNat

namespace MultiPatternModel

variable {K : Type*}

def usesColor (model : MultiPatternModel K) (color_id : Raw8) : Bool := model.used.isUsed color_id

def usePattern (used : ColorsUsed) (p : Pattern K) : ColorsUsed :=
  if p.enabled then
    (List.range p.num_markers.toNat).foldl (fun used j => used.use (p.markers j).id) used
  else used

def recheckColorsUsed (model : MultiPatternModel K) : MultiPatternModel K :=
  { model with used := model.patterns.foldl usePattern (.clear model.used.n) }

/-- The end of `TeamDetector::init`, with the patterns that are selected. -/
def selectPatterns (model : MultiPatternModel K) (selected : Nat → Bool) : MultiPatternModel K :=
  let patterns := model.patterns.mapIdx fun i (p : Pattern K) => p.setEnabled (selected i)
  { model with patterns }.recheckColorsUsed

end MultiPatternModel

-- ---------------------------------------------------------------------------
-- What a region measures
-- ---------------------------------------------------------------------------

/-- `image2field` with all three coordinates: the point, and its height. -/
abbrev Camera3 (K : Type*) := Vector2 K → K → Vector2 K × K

def Camera3.plane {K : Type*} (camera : Camera3 K) : Camera K := fun p z => (camera p z).1

structure FieldFilter (K : Type*) where
  half_field_length : K
  half_field_width : K
  boundary_width : K

variable {K : Type} [Field K] [LinearOrder K]

def FieldFilter.isInFieldOrPlayableBoundary (f : FieldFilter K) (pos : Vector2 K) : Bool :=
  |pos.x| ≤ f.half_field_length + f.boundary_width &&
    |pos.y| ≤ f.half_field_width + f.boundary_width

/-- The area that the camera's view of the bounding box suggests. -/
def getRegionArea (camera : Camera3 K) (reg : Region) (z : K) : K :=
  let a := (camera ⟨reg.x2 + 1, reg.y2 + 1⟩ z).1
  let b := (camera ⟨reg.x1, reg.y1⟩ z).1
  let box_area := |a.x - b.x| * |a.y - b.y|
  let box_pixels : Int := (reg.x2 + 1 - reg.x1) * (reg.y2 + 1 - reg.y1)
  reg.area * box_area / box_pixels

omit [LinearOrder K] in
def Marker.set (reg : Region) (loc : Vector2 K) (z area : K) : Marker K :=
  { Marker.reset with
    reg := some reg
    loc
    height := z
    area
    id := reg.color
    conf := 1 }

-- ---------------------------------------------------------------------------
-- findRobotsByModel
-- ---------------------------------------------------------------------------

structure ModelDetector (K : Type) extends TeamDetector K where
  max_robots : Int
  robot_height : K
  have_angle : Bool
  field_filter : FieldFilter K
  filter_team : RegionFilter
  filter_others : RegionFilter
  model : MultiPatternModel K

abbrev RegionTree (K Q : Type) := NKDTree Nat K 2 Q

/-- `operator []` of a region. -/
def position (regs : Nat → Region) (r : Nat) : NVector K 2 := ![(regs r).cen_x, (regs r).cen_y]

namespace ModelDetector

variable (det : ModelDetector K) (math : Math K) (camera : Camera3 K) (regs : Nat → Region)

def centre (r : Nat) : Marker K :=
  let (loc, z) := camera ⟨(regs r).cen_x, (regs r).cen_y⟩ det.robot_height
  Marker.set (regs r) loc z (getRegionArea camera (regs r) det.robot_height)

def markerAt (cen : Marker K) (mreg : Nat) : Marker K :=
  let m := det.centre camera regs mreg
  let ofs := m.loc.sub cen.loc
  { m with
    dist := ofs.length math
    angle := ofs.angle math }

def MayBeMarker (mreg : Nat) : Bool :=
  det.filter_others.check (box (regs mreg)) && det.model.usesColor (regs mreg).color

variable {Q : Type} (E : ExactSqrt K) (pq : PriorityQueue Nat K 2 Q)

def gather (fuel : Nat) (cen : Marker K) : (rounds : Nat) → List (Marker K) → RegionTree K Q →
    Option (List (Marker K) × RegionTree K Q)
  | 0, _, _ => none
  | rounds + 1, markers, t => do
    let (found, t) ← t.getNextNearest E pq (position regs) fuel
    match found with
    | none => some (markers, t)
    | some (mreg, _) =>
      if markers.length < MaxMarkers then
        if det.MayBeMarker regs mreg then
          let m := det.markerAt math camera regs cen mreg
          if 0 < m.dist ∧ m.dist < det.pattern_max_dist then
            gather fuel cen rounds (markers ++ [m]) t
          else gather fuel cen rounds markers t
        else gather fuel cen rounds markers t
      else some (markers, t)

def arrange (markers : List (Marker K)) : List (Marker K) :=
  let sorted := markers.insertionSort fun a b => a.angle ≤ b.angle
  sorted.mapIdx (linkMeasures math sorted)

def arranged (markers : List (Marker K)) (i : Nat) : Marker K := (arrange math markers).getD i .reset

def recognise (markers : List (Marker K)) : Option (Option (PatternDetectionResult K)) :=
  if markers.length ≥ 2 then do
    let (found, res, _) ← det.model.findPattern math camera.plane (arranged math markers)
      markers.length det.pattern_fit_params
    some (if found then some res else none)
  else some none

def setup (cen : Marker K) (r : Nat) (res : PatternDetectionResult K) (robot : DetectionRobot K) :
    DetectionRobot K :=
  { robot with
    x := cen.loc.x
    y := cen.loc.y
    orientation := if det.have_angle then some res.angle else robot.orientation
    robot_id := some (BitVec.ofInt 32 res.id)
    pixelX := (regs r).cen_x
    pixelY := (regs r).cen_y
    height := cen.height }

def addFound (cen : Marker K) (r : Nat) (robots : List (DetectionRobot K))
    (res : PatternDetectionResult K) : List (DetectionRobot K) :=
  match addRobot robots res.conf (det.max_robots * 2) with
  | (robots, some i) => robots.modify i (det.setup regs cen r res)
  | (robots, none) => robots

def visit (fuel : Nat) (s : List (DetectionRobot K) × RegionTree K Q) (r : Nat) :
    Option (List (DetectionRobot K) × RegionTree K Q) :=
  let (robots, t) := s
  let cen := det.centre camera regs r
  if det.field_filter.isInFieldOrPlayableBoundary cen.loc then do
    let t := t.startQuery E pq (position regs r) 20
    let (markers, t) ← det.gather math camera regs E pq fuel cen fuel [] t
    let t := t.endQuery pq
    let found ← det.recognise math camera markers
    match found with
    | some res => some (det.addFound regs cen r robots res, t)
    | none => some (robots, t)
  else some (robots, t)

/-- The robots and the tree, from the team's regions `xs`; loops are bounded by `fuel`. -/
def findRobotsByModel (fuel : Nat) (xs : List Nat) (t : RegionTree K Q) :
    Option (List (DetectionRobot K) × RegionTree K Q) := do
  let (robots, t) ← det.filter_team.forEachFrom regs (det.visit math camera regs E pq fuel) fuel
    xs ([], t)
  let robots ← removeExtra det.max_robots (stripRobots robots)
  some (robots, t)

end ModelDetector

-- ---------------------------------------------------------------------------
-- The colours that are used
-- ---------------------------------------------------------------------------

namespace ColorsUsed

theorem isUsed_iff {u : ColorsUsed} {c : Raw8} :
    u.isUsed c ↔ c.toNat < u.n ∧ u.used c.toNat = true := by
  rw [isUsed]
  split
  · simp
    omega
  · simp
    omega

theorem isUsed_use {u : ColorsUsed} {c d : Raw8} :
    (u.use d).isUsed c ↔ u.isUsed c ∨ c.toNat < u.n ∧ d = c := by
  rw [isUsed_iff, isUsed_iff, use]
  by_cases hd : d.toNat < u.n
  · rw [if_pos hd]
    by_cases heq : c = d
    · subst heq
      simp [hd]
    · have hne : c.toNat ≠ d.toNat := fun h => heq (BitVec.eq_of_toNat_eq h)
      simp [Function.update_of_ne hne, Ne.symm heq]
  · rw [if_neg hd]
    constructor
    · exact .inl
    · rintro (h | ⟨hc, rfl⟩)
      · exact h
      · exact absurd hc hd

@[simp] theorem n_use (u : ColorsUsed) (d : Raw8) : (u.use d).n = u.n := by
  rw [use]
  split <;> rfl

theorem isUsed_foldl_use {β : Type*} (id : β → Raw8) (xs : List β) (u : ColorsUsed) {c : Raw8} :
    (xs.foldl (fun used x => used.use (id x)) u).n = u.n ∧
      ((xs.foldl (fun used x => used.use (id x)) u).isUsed c ↔
        u.isUsed c ∨ c.toNat < u.n ∧ ∃ x ∈ xs, id x = c) := by
  induction xs generalizing u with
  | nil => simp
  | cons x xs ih =>
    obtain ⟨hn, hused⟩ := ih (u.use (id x))
    rw [List.foldl_cons]
    refine ⟨hn.trans (n_use u _), ?_⟩
    rw [hused, isUsed_use, n_use, or_assoc, ← and_or_left]
    simp only [List.mem_cons, exists_eq_or_imp]

end ColorsUsed

namespace MultiPatternModel

variable {K : Type*}

theorem isUsed_usePattern (u : ColorsUsed) (p : Pattern K) {c : Raw8} :
    (usePattern u p).n = u.n ∧
      ((usePattern u p).isUsed c ↔ u.isUsed c ∨ c.toNat < u.n ∧ p.enabled = true ∧
        ∃ j : Nat, j < p.num_markers ∧ (p.markers j).id = c) := by
  rw [usePattern]
  by_cases henabled : p.enabled = true
  · rw [if_pos henabled]
    obtain ⟨hn, hused⟩ := ColorsUsed.isUsed_foldl_use (fun j => (p.markers j).id)
      (List.range p.num_markers.toNat) u
    refine ⟨hn, hused.trans ?_⟩
    have hlt (j : Nat) : j ∈ List.range p.num_markers.toNat ↔ (j : Int) < p.num_markers := by
      rw [List.mem_range]
      omega
    simp only [hlt, henabled, true_and]
  · rw [if_neg henabled]
    simp [henabled]

/-- After `recheckColorsUsed` the colours in use are those of the enabled patterns' markers. -/
theorem usesColor_recheckColorsUsed (model : MultiPatternModel K) {c : Raw8} :
    model.recheckColorsUsed.usesColor c ↔ c.toNat < model.used.n ∧
      ∃ p ∈ model.patterns, p.enabled = true ∧
        ∃ j : Nat, j < p.num_markers ∧ (p.markers j).id = c := by
  have hfold (ps : List (Pattern K)) (u : ColorsUsed) : (ps.foldl usePattern u).n = u.n ∧
      ((ps.foldl usePattern u).isUsed c ↔ u.isUsed c ∨ c.toNat < u.n ∧ ∃ p ∈ ps,
        p.enabled = true ∧ ∃ j : Nat, j < p.num_markers ∧ (p.markers j).id = c) := by
    induction ps generalizing u with
    | nil => simp
    | cons p ps ih =>
      obtain ⟨hn, hused⟩ := isUsed_usePattern u p (c := c)
      obtain ⟨hn', hused'⟩ := ih (usePattern u p)
      rw [List.foldl_cons]
      refine ⟨hn'.trans hn, ?_⟩
      rw [hused', hused, hn, or_assoc, ← and_or_left]
      simp only [List.mem_cons, exists_eq_or_imp]
  obtain ⟨-, hused⟩ := hfold model.patterns (.clear model.used.n)
  rw [usesColor, recheckColorsUsed, hused]
  simp [ColorsUsed.isUsed_iff, ColorsUsed.clear]

theorem usesColor_selectPatterns (model : MultiPatternModel K) (selected : Nat → Bool) {c : Raw8} :
    (model.selectPatterns selected).usesColor c ↔ c.toNat < model.used.n ∧
      ∃ (i : Nat) (p : Pattern K), model.patterns[i]? = some p ∧ selected i = true ∧
        ∃ j : Nat, j < p.num_markers ∧ (p.markers j).id = c := by
  rw [selectPatterns, usesColor_recheckColorsUsed]
  refine and_congr_right fun _ => ?_
  constructor
  · rintro ⟨q, hq, henabled, hcolor⟩
    obtain ⟨i, hi, rfl⟩ := List.mem_mapIdx.mp hq
    exact ⟨i, model.patterns[i], List.getElem?_eq_getElem hi, henabled, hcolor⟩
  · rintro ⟨i, p, hp, hselected, hcolor⟩
    obtain ⟨hi, rfl⟩ := List.getElem?_eq_some_iff.mp hp
    exact ⟨_, List.mem_mapIdx.mpr ⟨i, hi, rfl⟩, hselected, hcolor⟩

end MultiPatternModel

-- ---------------------------------------------------------------------------
-- The nearest regions
-- ---------------------------------------------------------------------------

section Scanned

variable [IsStrictOrderedRing K] {Q : Type} (E : ExactSqrt K) (pq : PriorityQueue Nat K 2 Q)
  (pos : Nat → NVector K 2)

variable {E pq pos} in
theorem root_getNextNearest {fuel : Nat} {t t' : RegionTree K Q} {found : Option (Nat × K)}
    (h : t.getNextNearest E pq pos fuel = some (found, t')) : t'.root = t.root := by
  rw [NKDTree.getNextNearest_eq] at h
  obtain ⟨r, -, heq⟩ := Option.map_eq_some_iff.mp h
  obtain ⟨-, rfl⟩ := Prod.mk.inj heq
  rfl

omit [IsStrictOrderedRing K] in
theorem root_startQuery (t : RegionTree K Q) (q : NVector K 2) (d : K) :
    (t.startQuery E pq q d).root = t.root := by
  rw [NKDTree.startQuery, NKDTree.addNodeToSearchQueue_eq]
  rfl

/-- A query answers from the nodes of the tree, whatever was asked before. -/
theorem nextNearest_startQuery {t t' : RegionTree K Q} (h : t'.root = t.root) (q : NVector K 2)
    (d : K) (fuel i : Nat) :
    (t'.startQuery E pq q d).nextNearest E pq pos fuel i =
      (t.startQuery E pq q d).nextNearest E pq pos fuel i := by
  obtain ⟨hq, hd, hqueue⟩ := NKDTree.startQuery_queue E pq q d t
  obtain ⟨hq', hd', hqueue'⟩ := NKDTree.startQuery_queue E pq q d t'
  rw [NKDTree.nextNearest_eq, NKDTree.nextNearest_eq, hq, hd, hqueue, hq', hd', hqueue', h]

/-- `out` is what the tree has still to give out. -/
def Gives (fuel : Nat) (t : RegionTree K Q) (out : List Nat) : Prop :=
  ∀ i, (t.nextNearest E pq pos fuel i).map (·.map Prod.fst) = some out[i]?

variable {E pq pos}

omit [IsStrictOrderedRing K] in
theorem Gives.nil {fuel : Nat} {t : RegionTree K Q} (h : Gives E pq pos fuel t []) :
    ∃ t', t.getNextNearest E pq pos fuel = some (none, t') := by
  have hfirst := h 0
  rw [NKDTree.nextNearest, Option.map_map] at hfirst
  obtain ⟨⟨found, t'⟩, hnext, hfound⟩ := Option.map_eq_some_iff.mp hfirst
  obtain rfl : found = none := Option.map_eq_none_iff.mp hfound
  exact ⟨t', hnext⟩

omit [IsStrictOrderedRing K] in
theorem Gives.cons {fuel : Nat} {t : RegionTree K Q} {r : Nat} {out : List Nat}
    (h : Gives E pq pos fuel t (r :: out)) :
    ∃ d t', t.getNextNearest E pq pos fuel = some (some (r, d), t') ∧ Gives E pq pos fuel t' out := by
  have hfirst := h 0
  rw [NKDTree.nextNearest, Option.map_map] at hfirst
  obtain ⟨⟨found, t'⟩, hnext, hfound⟩ := Option.map_eq_some_iff.mp hfirst
  obtain ⟨⟨r', d⟩, rfl, rfl⟩ := Option.map_eq_some_iff.mp (show found.map Prod.fst = some r from hfound)
  refine ⟨d, t', hnext, fun i => ?_⟩
  have hrest := h (i + 1)
  rwa [NKDTree.nextNearest, hnext, Option.bind_some, List.getElem?_cons_succ] at hrest

end Scanned

namespace ModelDetector

section Gathering

variable (det : ModelDetector K) (math : Math K) (camera : Camera3 K) (regs : Nat → Region)

def near (m : Marker K) : Bool := 0 < m.dist ∧ m.dist < det.pattern_max_dist

def markersAmong (cen : Marker K) (out : List Nat) : List (Marker K) :=
  ((out.filter (det.MayBeMarker regs)).map (det.markerAt math camera regs cen)).filter det.near

variable [IsStrictOrderedRing K] {Q : Type} {E : ExactSqrt K} {pq : PriorityQueue Nat K 2 Q}

/-- The loop gathers the first of the markers, as many as there is room for. -/
theorem gather_eq {fuel : Nat} (cen : Marker K) {out : List Nat} {t : RegionTree K Q}
    (h : Gives E pq (position regs) fuel t out) {rounds : Nat} (hrounds : out.length < rounds)
    {markers : List (Marker K)} (hmarkers : markers.length ≤ MaxMarkers) :
    ∃ t', det.gather math camera regs E pq fuel cen rounds markers t =
        some ((markers ++ det.markersAmong math camera regs cen out).take MaxMarkers, t') ∧
      t'.root = t.root := by
  induction out generalizing t rounds markers with
  | nil =>
    cases rounds with
    | zero => cases hrounds
    | succ rounds =>
      obtain ⟨t', hnext⟩ := h.nil
      refine ⟨t', ?_, root_getNextNearest hnext⟩
      rw [gather, hnext]
      simp [markersAmong, List.take_of_length_le hmarkers]
  | cons r out ih =>
    cases rounds with
    | zero => cases hrounds
    | succ rounds =>
      have hrounds : out.length < rounds := Nat.lt_of_succ_lt_succ hrounds
      obtain ⟨d, t', hnext, hrest⟩ := h.cons
      have hroot := root_getNextNearest hnext
      rw [gather, hnext]
      simp only [Option.bind_eq_bind, Option.bind_some]
      by_cases hroom : markers.length < MaxMarkers
      · -- Whatever becomes of `r`, the loop goes on with the rest.
        obtain ⟨t'', hskip, hroot'⟩ := ih hrest hrounds hmarkers
        rw [if_pos hroom]
        by_cases hmay : det.MayBeMarker regs r = true
        · rw [if_pos hmay]
          by_cases hnear : det.near (det.markerAt math camera regs cen r) = true
          · have hlength : (markers ++ [det.markerAt math camera regs cen r]).length ≤ MaxMarkers := by
              rw [List.length_append]
              exact hroom
            obtain ⟨t'', hkeep, hroot'⟩ := ih hrest hrounds hlength
            refine ⟨t'', ?_, hroot'.trans hroot⟩
            rw [if_pos (of_decide_eq_true hnear), hkeep]
            simp [markersAmong, hmay, hnear]
          · refine ⟨t'', ?_, hroot'.trans hroot⟩
            rw [if_neg fun h => hnear (decide_eq_true h), hskip]
            simp [markersAmong, hmay, hnear]
        · refine ⟨t'', ?_, hroot'.trans hroot⟩
          rw [if_neg hmay, hskip]
          simp [markersAmong, hmay]
      · refine ⟨t', ?_, hroot⟩
        rw [if_neg hroom]
        have hfull : markers.length = MaxMarkers := Nat.le_antisymm hmarkers (Nat.le_of_not_lt hroom)
        rw [← hfull, List.take_left]

def OnRegion (m : Marker K) : Prop := ∃ r, m.reg = some (regs r) ∧ m.id = (regs r).color

omit [IsStrictOrderedRing K] in
theorem onRegion_markersAmong {cen m : Marker K} {out : List Nat}
    (hm : m ∈ det.markersAmong math camera regs cen out) : OnRegion regs m := by
  obtain ⟨hm, -⟩ := List.mem_filter.mp hm
  obtain ⟨r, -, rfl⟩ := List.mem_map.mp hm
  exact ⟨r, rfl, rfl⟩

end Gathering

end ModelDetector

-- ---------------------------------------------------------------------------
-- What is recognised
-- ---------------------------------------------------------------------------

namespace MultiPatternModel

variable {K : Type*} [Field K] [LinearOrder K] (model : MultiPatternModel K)
  (markers : Nat → Marker K) (n : Nat) (fit_params : PatternFitParameters K)

def HasCode (i ofs : Nat) (p : Pattern K) : Prop :=
  model.Candidate n i ofs p ∧ p.pattern = colorCode n fun k => (markers ((k + ofs) % n)).id

structure Fits (i ofs : Nat) (p : Pattern K) : Prop where
  hasCode : model.HasCode markers n i ofs p
  below : calcFitError p.markers markers n ofs fit_params < sq fit_params.fit_max_error
  minimal : ∀ j ofs' q, model.HasCode markers n j ofs' q →
    calcFitError p.markers markers n ofs fit_params ≤
      calcFitError q.markers markers n ofs' fit_params

variable {model markers n fit_params}

theorem findPattern_spec (math : Math K) (image2field : Camera K) (hn : n ≤ MaxMarkers)
    (hreg : ∀ i < n, (markers i).reg ≠ none) :
    (∃ result markers' ofs p,
        model.findPattern math image2field markers n fit_params = some (true, result, markers') ∧
        model.Fits markers n fit_params result.idx ofs p ∧ result.id = p.robot_id ∧
        result.conf = SSEVsUniform math (calcFitError p.markers markers n ofs fit_params)
          fit_params.fit_variance fit_params.fit_uniform) ∨
      (∃ result,
        model.findPattern math image2field markers n fit_params = some (false, result, markers)) ∧
        ∀ j ofs q, model.HasCode markers n j ofs q →
          sq fit_params.fit_max_error ≤ calcFitError q.markers markers n ofs fit_params := by
  have hcandidate {i ofs : Nat} {p : Pattern K} (h : model.HasCode markers n i ofs p) :
      (i, ofs) ∈ model.candidates markers n := (model.mem_candidates markers n).mpr ⟨p, h⟩
  rcases hs : model.search markers n fit_params with ⟨_ | ⟨i, ofs⟩, sse⟩
  · refine .inr ⟨⟨.reset, by rw [findPattern, hs]⟩, fun j ofs q hq => ?_⟩
    have hnone : (model.search markers n fit_params).1 = none := by rw [hs]
    rw [search_eq_scan] at hnone
    have hle := (FirstBest.scan_none hnone).2 _ (hcandidate hq)
    rwa [hq.1.fitError] at hle
  · have hsome : (model.search markers n fit_params).1 = some (i, ofs) := by rw [hs]
    rw [search_eq_scan] at hsome
    obtain ⟨hsse, hmem, hbelow, hbest⟩ :=
      FirstBest.scan_some (model.pairwise_candidates markers n) hsome
    rw [← search_eq_scan, hs] at hsse
    obtain ⟨p, hp, hcode⟩ := (model.mem_candidates markers n).mp hmem
    rw [hp.fitError] at hbelow
    obtain rfl : sse = calcFitError p.markers markers n ofs fit_params := by
      rw [← hp.fitError]
      exact hsse
    obtain ⟨fixed, hfix, -⟩ := fixHeights_spec image2field markers hreg
    obtain ⟨markers', hroll, -⟩ := roll_spec fixed hn hp.rotation
    obtain ⟨result, hfind, rfl, hid, hconf⟩ : ∃ result,
        model.findPattern math image2field markers n fit_params = some (true, result, markers') ∧
        result.idx = i ∧ result.id = p.robot_id ∧
        result.conf = SSEVsUniform math (calcFitError p.markers markers n ofs fit_params)
          fit_params.fit_variance fit_params.fit_uniform := by
      simp only [findPattern, hs, hp.pattern, hfix, hroll, Option.bind_eq_bind, Option.bind_some]
      exact ⟨_, rfl, rfl, rfl, rfl⟩
    refine .inl ⟨result, markers', ofs, p, hfind, ⟨⟨hp, hcode⟩, hbelow, fun j ofs' q hq => ?_⟩,
      hid, hconf⟩
    rw [← hp.fitError, ← hq.1.fitError]
    rcases hbest _ (hcandidate hq) with heq | hless | ⟨heq, -⟩
    · rw [heq]
    · exact hless.le
    · exact heq.le

end MultiPatternModel

namespace ModelDetector

section Recognition

variable (det : ModelDetector K) (math : Math K) (camera : Camera3 K)

theorem length_arrange (markers : List (Marker K)) :
    (arrange math markers).length = markers.length := by
  rw [arrange, List.length_mapIdx, List.length_insertionSort]

theorem exists_of_mem_arrange {markers : List (Marker K)} {m : Marker K}
    (hm : m ∈ arrange math markers) : ∃ m' ∈ markers, m.reg = m'.reg ∧ m.id = m'.id := by
  obtain ⟨i, hi, rfl⟩ := List.mem_mapIdx.mp hm
  refine ⟨_, (List.mem_insertionSort _).mp (List.getElem_mem hi), ?_⟩
  rw [linkMeasures]
  split <;> exact ⟨rfl, rfl⟩

theorem exists_of_arranged {markers : List (Marker K)} {i : Nat} (hi : i < markers.length) :
    ∃ m ∈ markers, (arranged math markers i).reg = m.reg ∧ (arranged math markers i).id = m.id := by
  rw [← length_arrange math markers] at hi
  rw [arranged, List.getD_eq_getElem?_getD, List.getElem?_eq_getElem hi]
  exact exists_of_mem_arrange math (List.getElem_mem hi)

/-- At least two markers make up pattern `p`, which fits best. -/
structure Recognises (markers : List (Marker K)) (res : PatternDetectionResult K) (ofs : Nat)
    (p : Pattern K) : Prop where
  two_le : 2 ≤ markers.length
  fits : det.model.Fits (arranged math markers) markers.length det.pattern_fit_params res.idx ofs p
  id : res.id = p.robot_id
  conf : res.conf = SSEVsUniform math
    (calcFitError p.markers (arranged math markers) markers.length ofs det.pattern_fit_params)
    det.pattern_fit_params.fit_variance det.pattern_fit_params.fit_uniform

/-- No enabled pattern with the code of the markers fits. -/
def Unrecognisable (markers : List (Marker K)) : Prop :=
  2 ≤ markers.length → ∀ j ofs q,
    det.model.HasCode (arranged math markers) markers.length j ofs q →
    sq det.pattern_fit_params.fit_max_error ≤
      calcFitError q.markers (arranged math markers) markers.length ofs det.pattern_fit_params

theorem recognise_spec {markers : List (Marker K)} (hlength : markers.length ≤ MaxMarkers)
    (hreg : ∀ m ∈ markers, m.reg ≠ none) :
    (∃ res ofs p, det.recognise math camera markers = some (some res) ∧
        det.Recognises math markers res ofs p) ∨
      det.recognise math camera markers = some none ∧ det.Unrecognisable math markers := by
  rw [recognise]
  by_cases htwo : markers.length ≥ 2
  · rw [if_pos htwo]
    have harranged (i : Nat) (hi : i < markers.length) : (arranged math markers i).reg ≠ none := by
      obtain ⟨m, hm, hr, -⟩ := exists_of_arranged math hi
      rw [hr]
      exact hreg m hm
    rcases MultiPatternModel.findPattern_spec math camera.plane hlength harranged with
      ⟨result, markers', ofs, p, hfind, hfits, hid, hconf⟩ | ⟨⟨result, hfind⟩, hnone⟩
    · refine .inl ⟨result, ofs, p, ?_, htwo, hfits, hid, hconf⟩
      rw [hfind]
      rfl
    · refine .inr ⟨?_, fun _ => hnone⟩
      rw [hfind]
      rfl
  · rw [if_neg htwo]
    exact .inr ⟨rfl, fun h => absurd h htwo⟩

end Recognition

-- ---------------------------------------------------------------------------
-- The loop over the centre markers
-- ---------------------------------------------------------------------------

section Visits

variable (det : ModelDetector K) (math : Math K) (camera : Camera3 K) (regs : Nat → Region)

def gathered (out : List Nat) (r : Nat) : List (Marker K) :=
  (det.markersAmong math camera regs (det.centre camera regs r) out).take MaxMarkers

/-- The robot that the centre marker `r` makes, if it makes one. -/
def reading (around : Nat → List Nat) (r : Nat) : Option (DetectionRobot K) :=
  let cen := det.centre camera regs r
  if det.field_filter.isInFieldOrPlayableBoundary cen.loc then
    match det.recognise math camera (det.gathered math camera regs (around r) r) with
    | some (some res) => some (det.setup regs cen r res (.cleared res.conf))
    | _ => none
  else none

abbrev limit : Nat := (det.max_robots * 2).toNat

/-- A robot takes its place among the `limit` most confident. -/
def insert (robots : List (DetectionRobot K)) (robot : DetectionRobot K) : List (DetectionRobot K) :=
  (Ranking.rank DetectionRobot.confidence robots robot).take det.limit

theorem addFound_eq {cen : Marker K} {r : Nat} {robots : List (DetectionRobot K)}
    (h : robots.length ≤ det.limit) (res : PatternDetectionResult K) :
    det.addFound regs cen r robots res =
      det.insert robots (det.setup regs cen r res (.cleared res.conf)) :=
  (modify_addRobot h rfl).trans (addCall_eq h _)

omit [Field K] in
theorem length_insert_le (robots : List (DetectionRobot K)) (robot : DetectionRobot K) :
    (det.insert robots robot).length ≤ det.limit := List.length_take_le _ _

variable {math camera regs}

theorem length_gathered_le (out : List Nat) (r : Nat) :
    (det.gathered math camera regs out r).length ≤ MaxMarkers := List.length_take_le _ _

theorem onRegion_gathered {out : List Nat} {r : Nat} {m : Marker K}
    (hm : m ∈ det.gathered math camera regs out r) : OnRegion regs m :=
  det.onRegion_markersAmong math camera regs (List.mem_of_mem_take hm)

variable (math camera regs) in
theorem recognise_gathered (out : List Nat) (r : Nat) :
    (∃ res ofs p, det.recognise math camera (det.gathered math camera regs out r) =
        some (some res) ∧ det.Recognises math (det.gathered math camera regs out r) res ofs p) ∨
      det.recognise math camera (det.gathered math camera regs out r) = some none ∧
        det.Unrecognisable math (det.gathered math camera regs out r) := by
  refine det.recognise_spec math camera (det.length_gathered_le out r) fun m hm => ?_
  obtain ⟨r', hr', -⟩ := det.onRegion_gathered hm
  rw [hr']
  exact Option.some_ne_none _

variable [IsStrictOrderedRing K] {Q : Type} {E : ExactSqrt K} {pq : PriorityQueue Nat K 2 Q}

theorem visit_eq {fuel : Nat} {around : Nat → List Nat} {r : Nat} {t : RegionTree K Q}
    (h : Gives E pq (position regs) fuel (t.startQuery E pq (position regs r) 20) (around r))
    (hfuel : (around r).length < fuel) {robots : List (DetectionRobot K)}
    (hlimit : robots.length ≤ det.limit) :
    ∃ t', det.visit math camera regs E pq fuel (robots, t) r =
        some ((det.reading math camera regs around r).elim robots (det.insert robots), t') ∧
      t'.root = t.root := by
  rw [visit, reading]
  by_cases hfield : det.field_filter.isInFieldOrPlayableBoundary (det.centre camera regs r).loc
  · rw [if_pos hfield, if_pos hfield]
    obtain ⟨t', hgather, hroot⟩ := det.gather_eq math camera regs (det.centre camera regs r) h
      hfuel (show ([] : List (Marker K)).length ≤ MaxMarkers from Nat.zero_le _)
    rw [List.nil_append] at hgather
    rw [root_startQuery] at hroot
    refine ⟨t'.endQuery pq, ?_, hroot⟩
    dsimp only
    rw [hgather, Option.bind_eq_bind, Option.bind_some]
    rcases det.recognise_gathered math camera regs (around r) r with ⟨res, -, -, hres, -⟩ | ⟨hnone, -⟩
    · rw [gathered] at hres
      simp only [gathered, hres, det.addFound_eq regs hlimit]
      rfl
    · rw [gathered] at hnone
      simp only [gathered, hnone]
      rfl
  · rw [if_neg hfield, if_neg hfield]
    exact ⟨t, rfl, rfl⟩

theorem visits_eq {fuel : Nat} {around : Nat → List Nat} {t : RegionTree K Q} (rs : List Nat)
    (h : ∀ r ∈ rs,
      Gives E pq (position regs) fuel (t.startQuery E pq (position regs r) 20) (around r))
    (hfuel : ∀ r ∈ rs, (around r).length < fuel) {robots : List (DetectionRobot K)}
    (hlimit : robots.length ≤ det.limit) :
    ∃ t', rs.foldlM (det.visit math camera regs E pq fuel) (robots, t) =
        some ((rs.filterMap (det.reading math camera regs around)).foldl det.insert robots, t') ∧
      t'.root = t.root := by
  induction rs generalizing robots t with
  | nil => exact ⟨t, rfl, rfl⟩
  | cons r rs ih =>
    obtain ⟨t', hvisit, hroot⟩ :=
      det.visit_eq (h r List.mem_cons_self) (hfuel r List.mem_cons_self) hlimit
    have hrest (r' : Nat) (hr' : r' ∈ rs) :
        Gives E pq (position regs) fuel (t'.startQuery E pq (position regs r') 20) (around r') := by
      intro i
      rw [nextNearest_startQuery E pq _ hroot]
      exact h r' (List.mem_cons_of_mem _ hr') i
    have hlimit' : ((det.reading math camera regs around r).elim robots
        (det.insert robots)).length ≤ det.limit := by
      cases det.reading math camera regs around r with
      | none => exact hlimit
      | some robot => exact det.length_insert_le robots robot
    obtain ⟨t'', hvisits, hroot'⟩ :=
      ih hrest (fun r' hr' => hfuel r' (List.mem_cons_of_mem _ hr')) hlimit'
    refine ⟨t'', ?_, hroot'.trans hroot⟩
    rw [List.foldlM_cons, hvisit, Option.bind_eq_bind, Option.bind_some, hvisits,
      List.filterMap_cons]
    cases det.reading math camera regs around r <;> rfl

end Visits

-- ---------------------------------------------------------------------------
-- What is reported
-- ---------------------------------------------------------------------------

section Reports

variable (det : ModelDetector K) (math : Math K) (camera : Camera3 K) (regs : Nat → Region)

/-- `out` lists the regions of `m` within 20 pixels of `r`, the nearest first. -/
structure Surrounds (E : ExactSqrt K) (m : Multiset Nat) (r : Nat) (out : List Nat) : Prop where
  within : (out : Multiset Nat) =
    m.filter fun s => NKDTree.dist E (position regs r) (position regs s) < 20
  nearest : out.Pairwise fun s s' => NKDTree.dist E (position regs r) (position regs s) ≤
    NKDTree.dist E (position regs r) (position regs s')

/-- The readings of the centre markers, the most confident first. -/
def readings (around : Nat → List Nat) (xs : List Nat) : List (DetectionRobot K) :=
  Ranking.ranking DetectionRobot.confidence
    ((xs.filter fun r => det.filter_team.check (box (regs r))).filterMap
      (det.reading math camera regs around))

/-- Of the first `limit` readings those with a confidence other than zero, and
of these the first `max_robots`. -/
def reported (around : Nat → List Nat) (xs : List Nat) : List (DetectionRobot K) :=
  (((det.readings math camera regs around xs).take det.limit).filter (·.confidence ≠ 0)).take
    det.max_robots.toNat

variable [IsStrictOrderedRing K] {Q : Type} (E : ExactSqrt K) (pq : PriorityQueue Nat K 2 Q)

/-- A tree that holds the regions `m` gives those around each centre marker,
if the loops are long enough. -/
theorem exists_surrounds {t : RegionTree K Q} {m : Multiset Nat}
    (h : t.root.Stores (position regs) m) (xs : List Nat) :
    ∃ around : Nat → List Nat, (∀ r, Surrounds regs E m r (around r)) ∧
      ∃ enough, ∀ fuel, enough ≤ fuel → xs.length < fuel ∧ ∀ r ∈ xs,
        Gives E pq (position regs) fuel (t.startQuery E pq (position regs r) 20) (around r) ∧
          (around r).length < fuel := by
  have hscan (r : Nat) : NKDTree.YieldsScan E pq (position regs) t m (position regs r) 20 :=
    NKDTree.yields_scan h
  choose around hwithin hnearest enough hgives using hscan
  refine ⟨around, fun r => ⟨hwithin r, hnearest r⟩, (xs.map enough).sum + m.card + xs.length + 1,
    fun fuel hfuel => ⟨by omega, fun r hr => ⟨?_, ?_⟩⟩⟩
  · have hmem : enough r ∈ xs.map enough := List.mem_map_of_mem hr
    have hle := List.single_le_sum (fun _ _ => Nat.zero_le _) _ hmem
    intro i
    rw [hgives r fuel (by omega) i]
    cases (around r)[i]? <;> rfl
  · have hcard : (around r).length ≤ m.card := by
      rw [← Multiset.coe_card, hwithin r]
      exact Multiset.card_le_card (Multiset.filter_le _ _)
    omega

theorem findRobots_of_gives {t : RegionTree K Q} {around : Nat → List Nat} {fuel : Nat}
    {xs : List Nat} (hlength : xs.length < fuel)
    (h : ∀ r ∈ xs,
      Gives E pq (position regs) fuel (t.startQuery E pq (position regs r) 20) (around r) ∧
        (around r).length < fuel)
    (hsorted : xs.Pairwise fun a b => (regs b).area ≤ (regs a).area) (hmax : 0 ≤ det.max_robots) :
    ∃ t', t'.root = t.root ∧ det.findRobotsByModel math camera regs E pq fuel xs t =
      some (det.reported math camera regs around xs, t') := by
  obtain ⟨t', hvisits, hroot⟩ :=
    det.visits_eq
      (xs.filter fun r => det.filter_team.check (box (regs r)))
      (fun r hr => (h r (List.mem_of_mem_filter hr)).1)
      (fun r hr => (h r (List.mem_of_mem_filter hr)).2)
      (show ([] : List (DetectionRobot K)).length ≤ det.limit from Nat.zero_le _)
  refine ⟨t', hroot, ?_⟩
  have hsorted' : xs.Pairwise fun a b => (box (regs b)).area ≤ (box (regs a)).area :=
    hsorted.imp fun h => by simpa [box] using h
  have hbest (robots : List (DetectionRobot K)) : robots.foldl det.insert [] =
      (Ranking.ranking DetectionRobot.confidence robots).take det.limit :=
    Ranking.best_eq_take_ranking det.limit robots
  rw [findRobotsByModel, RegionFilter.forEachFrom_eq _ hsorted' hlength, hvisits]
  simp only [Option.bind_eq_bind, Option.bind_some, hbest, stripRobots_eq_filter, removeExtra,
    if_pos hmax, InPlace.iterate_dropLast]
  refine congrArg some (Prod.ext ?_ rfl)
  rw [reported, readings, List.take_eq_take_iff]
  omega

/-- The robots that are found, of a tree that holds the regions `m` and a list in
descending area. -/
theorem findRobotsByModel_eq {t : RegionTree K Q} {m : Multiset Nat}
    (h : t.root.Stores (position regs) m) {xs : List Nat}
    (hsorted : xs.Pairwise fun a b => (regs b).area ≤ (regs a).area) (hmax : 0 ≤ det.max_robots) :
    ∃ around : Nat → List Nat, (∀ r, Surrounds regs E m r (around r)) ∧
      ∃ enough, ∀ fuel, enough ≤ fuel → ∃ t', t'.root = t.root ∧
        det.findRobotsByModel math camera regs E pq fuel xs t =
          some (det.reported math camera regs around xs, t') := by
  obtain ⟨around, haround, enough, hgives⟩ := exists_surrounds regs E pq h xs
  refine ⟨around, haround, enough, fun fuel hfuel => ?_⟩
  obtain ⟨hlength, hgives⟩ := hgives fuel hfuel
  exact det.findRobots_of_gives math camera regs E pq hlength hgives hsorted hmax

/-- Centre marker `r` passed the checks, the markers around it make up pattern
`p`, and `robot` says so. -/
structure Explains (around : Nat → List Nat) (r : Nat) (ofs : Nat) (p : Pattern K)
    (robot : DetectionRobot K) : Prop where
  accepted : det.filter_team.check (box (regs r))
  inField : det.field_filter.isInFieldOrPlayableBoundary (det.centre camera regs r).loc
  recognises : ∃ res, det.Recognises math (det.gathered math camera regs (around r) r) res ofs p ∧
    robot = det.setup regs (det.centre camera regs r) r res (.cleared res.conf)
  colors : SameLastColors p (arranged math (det.gathered math camera regs (around r) r))
    (det.gathered math camera regs (around r) r).length ofs

variable {math camera regs} in
omit [IsStrictOrderedRing K] in
theorem exists_of_reading (hcoded : ∀ p ∈ det.model.patterns, p.Coded) {around : Nat → List Nat}
    {r : Nat} {robot : DetectionRobot K} (haccepted : det.filter_team.check (box (regs r)))
    (h : det.reading math camera regs around r = some robot) :
    ∃ ofs p, det.Explains math camera regs around r ofs p robot := by
  rw [reading] at h
  by_cases hfield : det.field_filter.isInFieldOrPlayableBoundary (det.centre camera regs r).loc
  · rw [if_pos hfield] at h
    rcases det.recognise_gathered math camera regs (around r) r with
      ⟨res, ofs, p, hres, hrecognises⟩ | ⟨hnone, -⟩
    · rw [hres] at h
      obtain rfl := Option.some.inj h
      obtain ⟨hcandidate, hcode⟩ := hrecognises.fits.hasCode
      refine ⟨ofs, p, haccepted, hfield, ⟨res, hrecognises, rfl⟩, ?_⟩
      obtain ⟨q, hq, hcolors⟩ := (MultiPatternModel.mem_candidates_iff hcoded).mp
        ((det.model.mem_candidates _ _).mpr ⟨p, hcandidate, hcode⟩)
      obtain rfl : p = q := Option.some.inj (hcandidate.pattern.symm.trans hq.pattern)
      exact hcolors
    · rw [hnone] at h
      cases h
  · rw [if_neg hfield] at h
    cases h

/-- Why a robot is reported, for patterns whose codes are those of their markers. -/
theorem reported_sound {t : RegionTree K Q} {m : Multiset Nat}
    (h : t.root.Stores (position regs) m) {xs : List Nat}
    (hsorted : xs.Pairwise fun a b => (regs b).area ≤ (regs a).area) (hmax : 0 ≤ det.max_robots)
    (hcoded : ∀ p ∈ det.model.patterns, p.Coded) :
    ∃ around : Nat → List Nat, (∀ r, Surrounds regs E m r (around r)) ∧
      ∃ enough, ∀ fuel, enough ≤ fuel → ∃ robots t',
        det.findRobotsByModel math camera regs E pq fuel xs t = some (robots, t') ∧
        (robots.length : Int) ≤ det.max_robots ∧
        robots.Pairwise (fun a b => b.confidence ≤ a.confidence) ∧
        ∀ robot ∈ robots, robot.confidence ≠ 0 ∧
          ∃ r ∈ xs, ∃ ofs p, det.Explains math camera regs around r ofs p robot := by
  obtain ⟨around, haround, enough, hgives⟩ := exists_surrounds regs E pq h xs
  refine ⟨around, haround, enough, fun fuel hfuel => ?_⟩
  obtain ⟨hlength, hgives⟩ := hgives fuel hfuel
  obtain ⟨t', -, hresult⟩ :=
    det.findRobots_of_gives math camera regs E pq hlength hgives hsorted hmax
  have hsublist : (det.reported math camera regs around xs).Sublist
      (det.readings math camera regs around xs) :=
    (List.take_sublist _ _).trans (List.filter_sublist.trans (List.take_sublist _ _))
  refine ⟨_, t', hresult, ?_, ?_, fun robot hrobot => ⟨?_, ?_⟩⟩
  · rw [reported, List.length_take]
    omega
  · exact (Ranking.descending_ranking _).sublist hsublist
  · simpa using (List.mem_filter.mp (List.mem_of_mem_take hrobot)).2
  · obtain ⟨r, hr, hreading⟩ :=
      List.mem_filterMap.mp ((Ranking.perm_ranking _).mem_iff.mp (hsublist.subset hrobot))
    obtain ⟨hr, haccepted⟩ := List.mem_filter.mp hr
    exact ⟨r, hr, det.exists_of_reading hcoded haccepted hreading⟩

end Reports

-- ---------------------------------------------------------------------------
-- Three regions
-- ---------------------------------------------------------------------------

def regionAt (color : Raw8) (x y : Int) : Region where
  color
  x1 := x
  y1 := y
  x2 := x + 4
  y2 := y + 4
  cen_x := x + 2
  cen_y := y + 2
  area := 25
  run_start := 0
  iterator_id := 0

/-- A centre marker and two others, six and eight pixels away. -/
def threeRegions (r : Nat) : Region :=
  match r with
  | 0 => regionAt 1 100 100
  | 1 => regionAt 2 106 100
  | _ => regionAt 3 100 108

noncomputable def mathOfReals : Math ℝ where
  sqrt := Real.sqrt
  exp := Real.exp
  atan2 y x := Complex.arg ⟨x, y⟩
  fmod x y := x - y * if 0 ≤ x / y then ⌊x / y⌋ else ⌈x / y⌉
  rint x := round x
  M_2PI := Real.pi + Real.pi

noncomputable def overhead : Camera3 ℝ := fun p z => (⟨5 * p.x, 5 * p.y⟩, z)

/-- Markers of the colours 2 and 3, 30 and 40 units from the centre, the second
a right angle further on. -/
noncomputable def twoMarkers : Pattern ℝ where
  enabled := true
  markers k :=
    { Marker.reset with
      id := if k = 0 then 2 else 3
      area := 625
      dist := if k = 0 then 30 else 40
      next_dist := 50
      next_angle_dist := if k = 0 then 1.5 * Real.pi else 0.5 * Real.pi }
  num_markers := 2
  marker_mean := .zero
  pattern := colorCode 2 fun k => if k = 0 then 2 else 3
  height := 150
  robot_id := 4

theorem coded_twoMarkers : twoMarkers.Coded := by
  intro n hn
  obtain rfl : 2 = n := by exact_mod_cast (show (2 : Int) = n from hn)
  rfl

noncomputable def detector : ModelDetector ℝ where
  pattern_max_dist := 150
  pattern_fit_params := { PatternFitParameters.reset with fit_max_error := 1 }
  max_robots := 6
  robot_height := 150
  have_angle := true
  field_filter := ⟨3000, 2000, 300⟩
  filter_team := ⟨[], 0, 0, ⟨4, 100⟩, ⟨2, 30⟩, ⟨2, 30⟩⟩
  filter_others := ⟨[], 0, 0, ⟨4, 100⟩, ⟨2, 30⟩, ⟨2, 30⟩⟩
  model := MultiPatternModel.recheckColorsUsed ⟨[twoMarkers], .clear 32⟩

theorem dist_threeRegions {r : Nat} {x y d : ℝ} (hd : 0 ≤ d)
    (hx : position threeRegions 0 0 - position threeRegions r 0 = x)
    (hy : position threeRegions 0 1 - position threeRegions r 1 = y) (hxy : x * x + y * y = d * d) :
    NKDTree.dist NKDTree.realSqrt (position threeRegions 0) (position threeRegions r) = d := by
  rw [NKDTree.dist, NKDTree.sqdist, Fin.sum_univ_two, NKDTree.sq, NKDTree.sq, hx, hy, hxy]
  exact Real.sqrt_mul_self hd

def distances (r : Nat) : Nat := if r = 0 then 0 else 2 * r + 4

theorem dist_eq_distances {r : Nat} (hr : r ∈ [0, 1, 2]) :
    NKDTree.dist NKDTree.realSqrt (position threeRegions 0) (position threeRegions r) =
      (distances r : ℝ) := by
  fin_cases hr
  · exact dist_threeRegions (by norm_num) (sub_self _) (sub_self _) (by norm_num [distances])
  · refine dist_threeRegions (x := -6) (y := 0) (by norm_num) ?_ ?_ (by norm_num [distances]) <;>
      norm_num [position, threeRegions, regionAt]
  · refine dist_threeRegions (x := 0) (y := -8) (by norm_num) ?_ ?_ (by norm_num [distances]) <;>
      norm_num [position, threeRegions, regionAt]

theorem around_threeRegions {out : List Nat}
    (h : Surrounds threeRegions NKDTree.realSqrt {2, 1, 0} 0 out) : out = [0, 1, 2] := by
  have hall : ∀ r ∈ ({2, 1, 0} : Multiset Nat),
      NKDTree.dist NKDTree.realSqrt (position threeRegions 0) (position threeRegions r) < 20 := by
    intro r hr
    have hmem : r ∈ [0, 1, 2] := List.mem_reverse.mp (Multiset.mem_coe.mp hr)
    rw [dist_eq_distances hmem]
    fin_cases hmem <;> norm_num [distances]
  have hperm : out.Perm [0, 1, 2] := by
    rw [← Multiset.coe_eq_coe, h.within, Multiset.filter_eq_self.mpr hall]
    decide
  refine hperm.eq_of_pairwise (fun a b ha hb hab hba => ?_) h.nearest ?_
  · have heq := le_antisymm hab hba
    rw [dist_eq_distances (hperm.mem_iff.mp ha), dist_eq_distances hb, Nat.cast_inj] at heq
    simp only [distances] at heq
    split_ifs at heq <;> omega
  · have hsorted : [0, 1, 2].Pairwise fun a b => distances a ≤ distances b := by decide
    refine hsorted.imp_of_mem fun {a b} ha hb hab => ?_
    rw [dist_eq_distances ha, dist_eq_distances hb]
    exact Nat.cast_le.mpr hab

theorem area_regionAt (color : Raw8) (x y : Int) (z : ℝ) :
    getRegionArea overhead (regionAt color x y) z = 625 := by
  have hside (x : Int) : |5 * ((x : ℝ) + 4 + 1) - 5 * x| = 25 := by
    rw [show 5 * ((x : ℝ) + 4 + 1) - 5 * x = 25 by ring]
    norm_num
  have hpixels (x : Int) : x + 4 + 1 - x = 5 := by omega
  simp only [getRegionArea, overhead, regionAt, Int.cast_add, Int.cast_ofNat, hside, hpixels]
  norm_num

theorem centre_eq {k : Nat} {color : Raw8} {x y : Int} (hk : threeRegions k = regionAt color x y) :
    detector.centre overhead threeRegions k =
      Marker.set (regionAt color x y) ⟨5 * (x + 2 : ℝ), 5 * (y + 2 : ℝ)⟩ 150 625 := by
  have hcen (v : Int) : (((v : Rat) + 2 : Rat) : ℝ) = (v : ℝ) + 2 := by
    push_cast
    rfl
  rw [centre, hk]
  dsimp only [overhead]
  rw [area_regionAt]
  exact congrArg₂ (fun u v => Marker.set (regionAt color x y) ⟨5 * u, 5 * v⟩ 150 625)
    (hcen x) (hcen y)

noncomputable def seen (k : Nat) : Marker ℝ :=
  detector.markerAt mathOfReals overhead threeRegions (detector.centre overhead threeRegions 0) k

theorem seen_eq {k : Nat} {color : Raw8} {x y : Int} (hk : threeRegions k = regionAt color x y)
    {u v d : ℝ} (hx : 5 * (x + 2 : ℝ) - 510 = u) (hy : 5 * (y + 2 : ℝ) - 510 = v) (hd : 0 ≤ d)
    (hdist : u * u + v * v = d * d) :
    seen k = { Marker.set (regionAt color x y) ⟨510 + u, 510 + v⟩ 150 625 with
      dist := d
      angle := Complex.arg ⟨u, v⟩ } := by
  have hlength : Real.sqrt (u * u + v * v) = d := by rw [hdist, Real.sqrt_mul_self hd]
  have hofs : (⟨5 * (x + 2 : ℝ), 5 * (y + 2 : ℝ)⟩ : Vector2 ℝ).sub
      ⟨5 * (100 + 2 : ℝ), 5 * (100 + 2 : ℝ)⟩ = ⟨u, v⟩ := by
    rw [Vector2.sub, ← hx, ← hy]
    norm_num
  have hcentre : detector.centre overhead threeRegions 0 =
    Marker.set (regionAt 1 100 100) ⟨5 * (100 + 2 : ℝ), 5 * (100 + 2 : ℝ)⟩ 150 625 := by
    exact_mod_cast centre_eq (k := 0) rfl
  rw [seen, markerAt, centre_eq hk, hcentre]
  dsimp only [Marker.set]
  rw [hofs, Vector2.length, Vector2.angle]
  dsimp only [mathOfReals]
  rw [hlength, ← hx, ← hy]
  norm_num

theorem seen_one : seen 1 =
    { Marker.set (regionAt 2 106 100) ⟨540, 510⟩ 150 625 with dist := 30, angle := 0 } := by
  have hseen := seen_eq (k := 1) rfl (u := 30) (v := 0) (d := 30) (by norm_num) (by norm_num)
    (by norm_num) (by norm_num)
  have harg : Complex.arg ⟨30, 0⟩ = 0 := Complex.arg_eq_zero_iff.mpr ⟨by norm_num, rfl⟩
  rw [hseen, harg]
  norm_num

theorem seen_two : seen 2 =
    { Marker.set (regionAt 3 100 108) ⟨510, 550⟩ 150 625 with
      dist := 40
      angle := Real.pi / 2 } := by
  have hseen := seen_eq (k := 2) rfl (u := 0) (v := 40) (d := 40) (by norm_num) (by norm_num)
    (by norm_num) (by norm_num)
  have harg : Complex.arg ⟨0, 40⟩ = Real.pi / 2 :=
    Complex.arg_eq_pi_div_two_iff.mpr ⟨rfl, by norm_num⟩
  rw [hseen, harg]
  norm_num

theorem gathered_three :
    detector.gathered mathOfReals overhead threeRegions [0, 1, 2] 0 = [seen 1, seen 2] := by
  have hnear : detector.near (seen 1) = true ∧ detector.near (seen 2) = true := by
    rw [seen_one, seen_two]
    constructor <;> norm_num [near, detector]
  have hmay : [0, 1, 2].filter (detector.MayBeMarker threeRegions) = [1, 2] := rfl
  change ((([0, 1, 2].filter (detector.MayBeMarker threeRegions)).map seen).filter
    detector.near).take MaxMarkers = _
  rw [hmay]
  simp [hnear.1, hnear.2, MaxMarkers]

theorem anglePos_angleDiff {a b q : ℝ} {n : ℤ} (h : a - b = q * (Real.pi + Real.pi))
    (hround : round q = 0) (hpos : 0 ≤ q + 1) (hfloor : ⌊q + 1⌋ = n) :
    anglePos mathOfReals (angleDiff mathOfReals a b) = (q + 1 - n) * (Real.pi + Real.pi) := by
  have hturn : Real.pi + Real.pi ≠ 0 := by
    have := Real.pi_pos
    positivity
  have hback : (q * (Real.pi + Real.pi) + (Real.pi + Real.pi)) / (Real.pi + Real.pi) = q + 1 := by
    rw [add_div, mul_div_cancel_right₀ q hturn, div_self hturn]
  simp only [anglePos, angleDiff, mathOfReals, h, mul_div_cancel_right₀ q hturn, hround,
    Int.cast_zero, mul_zero, sub_zero, hback, if_pos hpos, hfloor]
  ring

theorem dist_seen : (seen 1).loc.dist mathOfReals (seen 2).loc = 50 ∧
    (seen 2).loc.dist mathOfReals (seen 1).loc = 50 := by
  have hroot : Real.sqrt (50 * 50) = 50 := Real.sqrt_mul_self (by norm_num)
  rw [seen_one, seen_two]
  constructor <;>
    · simp only [Vector2.dist, Vector2.length, Vector2.sub, mathOfReals, Marker.set]
      rw [← hroot]
      congr 1
      norm_num

theorem arrange_seen : arrange mathOfReals [seen 1, seen 2] =
    [{ seen 1 with next_dist := 50, next_angle_dist := 1.5 * Real.pi },
      { seen 2 with next_dist := 50, next_angle_dist := 0.5 * Real.pi }] := by
  have hone : (seen 1).angle = 0 := by rw [seen_one]
  have htwo : (seen 2).angle = Real.pi / 2 := by rw [seen_two]
  have hsorted : [seen 1, seen 2].insertionSort (fun a b => a.angle ≤ b.angle) =
      [seen 1, seen 2] := by
    have hle : (seen 1).angle ≤ (seen 2).angle := by
      rw [hone, htwo]
      exact Real.pi_div_two_pos.le
    simp [hle]
  have hfirst : anglePos mathOfReals (angleDiff mathOfReals 0 (Real.pi / 2)) = 1.5 * Real.pi := by
    rw [anglePos_angleDiff (q := -(1 / 4)) (n := 0) (by ring) (by norm_num [round_eq_zero_iff])
      (by norm_num) (by norm_num)]
    norm_num
    ring
  have hsecond : anglePos mathOfReals (angleDiff mathOfReals (Real.pi / 2) 0) = 0.5 * Real.pi := by
    rw [anglePos_angleDiff (q := 1 / 4) (n := 1) (by ring) (by norm_num [round_eq_zero_iff])
      (by norm_num) (by norm_num)]
    norm_num
    ring
  rw [arrange, hsorted]
  simp [linkMeasures, hone, htwo, hfirst, hsecond, dist_seen.1, dist_seen.2]

theorem calcFitError_seen : calcFitError twoMarkers.markers (arranged mathOfReals [seen 1, seen 2])
    2 0 detector.pattern_fit_params = 0 := by
  unfold arranged
  rw [arrange_seen, seen_one, seen_two]
  simp [calcFitError, List.range_succ, twoMarkers, deviation, sq, Marker.set]

theorem hasCode_seen :
    detector.model.HasCode (arranged mathOfReals [seen 1, seen 2]) 2 0 0 twoMarkers := by
  refine ⟨⟨by decide, rfl, rfl, rfl⟩, colorCode_eq_iff.mpr fun k hk _ => ?_⟩
  unfold arranged
  rw [arrange_seen, seen_one, seen_two]
  obtain rfl | rfl : k = 0 ∨ k = 1 := by omega
  · rfl
  · rfl

theorem reading_three {around : Nat → List Nat} (h : around 0 = [0, 1, 2]) :
    ∃ robot, detector.reading mathOfReals overhead threeRegions around 0 = some robot ∧
      robot.robot_id = some 4 ∧ robot.confidence ≠ 0 := by
  have hfield : detector.field_filter.isInFieldOrPlayableBoundary
      (detector.centre overhead threeRegions 0).loc = true := by
    rw [centre_eq (k := 0) rfl]
    norm_num [FieldFilter.isInFieldOrPlayableBoundary, detector, Marker.set, abs_of_nonneg]
  rw [reading, if_pos hfield, h]
  rcases detector.recognise_gathered mathOfReals overhead threeRegions [0, 1, 2] 0 with
    ⟨res, ofs, p, hrecognise, hrecognises⟩ | ⟨-, hnone⟩
  · rw [hrecognise]
    refine ⟨_, rfl, ?_, ?_⟩
    · obtain rfl : p = twoMarkers := List.mem_singleton.mp
        (List.mem_of_getElem? hrecognises.fits.hasCode.1.pattern)
      change some (BitVec.ofInt 32 res.id) = some 4
      rw [hrecognises.id]
      rfl
    · change res.conf ≠ 0
      rw [hrecognises.conf, SSEVsUniform]
      have hexp (x : ℝ) : 0 < mathOfReals.exp x := Real.exp_pos x
      have hu : (0 : ℝ) < detector.pattern_fit_params.fit_uniform := by
        norm_num [detector, PatternFitParameters.reset]
      exact ne_of_gt (div_pos (hexp _) (add_pos (hexp _) hu))
  · rw [gathered_three] at hnone
    have hle := hnone (by decide) 0 0 twoMarkers hasCode_seen
    rw [show [seen 1, seen 2].length = 2 from rfl, calcFitError_seen] at hle
    norm_num [detector, sq] at hle

theorem reported_three {around : Nat → List Nat} (h : around 0 = [0, 1, 2]) :
    ∃ robot ∈ detector.reported mathOfReals overhead threeRegions around [0],
      robot.robot_id = some 4 := by
  obtain ⟨robot, hreading, hid, hconf⟩ := reading_three h
  have haccepted :
      [0].filter (fun r => detector.filter_team.check (box (threeRegions r))) = [0] := rfl
  have hreadings : detector.readings mathOfReals overhead threeRegions around [0] = [robot] := by
    rw [readings, haccepted, List.filterMap_cons, hreading]
    rfl
  refine ⟨robot, ?_, hid⟩
  have hreported : detector.reported mathOfReals overhead threeRegions around [0] = [robot] := by
    rw [reported, hreadings]
    simp [limit, detector, hconf]
  rw [hreported]
  exact List.mem_singleton_self robot

abbrev Entries : Type :=
  {l : List (NKDTree.QueryNode Nat ℝ 2) // l.Pairwise fun a b => a.dist ≤ b.dist}

noncomputable def queue : PriorityQueue Nat ℝ 2 Entries :=
  BestFirst.sortedQueue NKDTree.QueryNode.dist

noncomputable def treeOfRegions : RegionTree ℝ Entries :=
  [NKDTree.Change.add 0, .add 1, .add 2, .build].foldl (NKDTree.apply (position threeRegions))
    (NKDTree.construct queue ⟨.null, false, ![0, 0], 0, queue.empty⟩)

theorem stores_treeOfRegions : treeOfRegions.root.Stores (position threeRegions) {2, 1, 0} :=
  NKDTree.apply_stores NKDTree.null_stores _

/-- A robot is found, with the identity of the pattern. -/
theorem findRobotsByModel_eq_three :
    ∃ around fuel robots t',
      detector.findRobotsByModel mathOfReals overhead threeRegions NKDTree.realSqrt
        queue fuel [0] treeOfRegions = some (robots, t') ∧
      robots = detector.reported mathOfReals overhead threeRegions around [0] ∧
      ∃ robot ∈ robots, robot.robot_id = some 4 := by
  obtain ⟨around, haround, enough, hfind⟩ :=
    detector.findRobotsByModel_eq mathOfReals overhead threeRegions NKDTree.realSqrt queue
      stores_treeOfRegions (List.pairwise_singleton _ 0) (by decide)
  obtain ⟨t', -, hresult⟩ := hfind enough (Nat.le_refl _)
  exact ⟨around, enough, _, t', hresult, rfl, reported_three (around_threeRegions (haround 0))⟩

theorem reported_sound_three :
    ∃ around fuel robots t',
      detector.findRobotsByModel mathOfReals overhead threeRegions NKDTree.realSqrt
        queue fuel [0] treeOfRegions = some (robots, t') ∧
      (∃ robot ∈ robots, robot.robot_id = some 4) ∧
      ∀ robot ∈ robots, robot.confidence ≠ 0 ∧ ∃ r ∈ [0], ∃ ofs p,
        detector.Explains mathOfReals overhead threeRegions around r ofs p robot := by
  have hcoded : ∀ p ∈ detector.model.patterns, p.Coded := by
    intro p hp
    obtain rfl := List.mem_singleton.mp hp
    exact coded_twoMarkers
  obtain ⟨around, haround, enough, hsound⟩ :=
    detector.reported_sound mathOfReals overhead threeRegions NKDTree.realSqrt queue
      stores_treeOfRegions (List.pairwise_singleton _ 0) (by decide) hcoded
  obtain ⟨around', haround', enough', hgives⟩ :=
    exists_surrounds threeRegions NKDTree.realSqrt queue stores_treeOfRegions [0]
  obtain ⟨robots, t', hresult, -, -, hrobots⟩ := hsound (max enough enough') (Nat.le_max_left _ _)
  obtain ⟨hlength, hgives⟩ := hgives (max enough enough') (Nat.le_max_right _ _)
  obtain ⟨t'', -, hresult'⟩ := detector.findRobots_of_gives mathOfReals overhead threeRegions
    NKDTree.realSqrt queue hlength hgives (List.pairwise_singleton _ 0) (by decide)
  obtain ⟨rfl, -⟩ := Prod.mk.inj (Option.some.inj (hresult.symm.trans hresult'))
  exact ⟨around, _, _, t', hresult, reported_three (around_threeRegions (haround' 0)), hrobots⟩

end ModelDetector

end LARCmaCS.CMPattern
