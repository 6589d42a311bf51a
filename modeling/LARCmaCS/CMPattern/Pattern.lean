import Mathlib.Algebra.Field.Defs
import Mathlib.Data.Rat.Cast.Defs
import LARCmaCS.Lib.FirstBest
import LARCmaCS.CMPattern.TeamDetector
import LARCmaCS.CMVision.Extract

/-!
# Marker patterns

`Marker`, `Pattern` and `MultiPatternModel` of `cmpattern_pattern.h`, with
`calcFitError` and `findPattern` of `cmpattern_pattern.cpp`. The arithmetic is
exact; the functions of `math.h` and the camera are parameters.
-/

namespace LARCmaCS.CMPattern

open CMVision (Raw8 Region)

-- ---------------------------------------------------------------------------
-- Numbers and vectors
-- ---------------------------------------------------------------------------

structure Math (K : Type*) where
  sqrt : K → K
  exp : K → K
  atan2 : K → K → K
  fmod : K → K → K
  rint : K → K
  M_2PI : K

def mathAtZero : Math Rat where
  sqrt _ := 0
  exp _ := 1
  atan2 _ _ := 0
  fmod _ _ := 0
  rint _ := 0
  M_2PI := 628 / 100

structure Vector2 (K : Type*) where
  x : K
  y : K
  deriving DecidableEq

namespace Vector2

variable {K : Type*} [Field K]

def zero : Vector2 K := ⟨0, 0⟩
def add (p q : Vector2 K) : Vector2 K := ⟨p.x + q.x, p.y + q.y⟩
def sub (p q : Vector2 K) : Vector2 K := ⟨p.x - q.x, p.y - q.y⟩
def div (p : Vector2 K) (f : K) : Vector2 K := ⟨p.x / f, p.y / f⟩

def length (math : Math K) (p : Vector2 K) : K := math.sqrt (p.x * p.x + p.y * p.y)
def norm (math : Math K) (p : Vector2 K) : Vector2 K := p.div (p.length math)
def angle (math : Math K) (p : Vector2 K) : K := math.atan2 p.y p.x

def dist (math : Math K) (a b : Vector2 K) : K := (a.sub b).length math

def project_in (b p : Vector2 K) : Vector2 K := ⟨b.x * p.x + b.y * p.y, b.x * p.y - b.y * p.x⟩
def project_out (b p : Vector2 K) : Vector2 K := ⟨b.x * p.x - b.y * p.y, b.y * p.x + b.x * p.y⟩

end Vector2

-- ---------------------------------------------------------------------------
-- Markers and patterns
-- ---------------------------------------------------------------------------

def MaxMarkers : Nat := 16

abbrev PatternCode := BitVec 64

structure Marker (K : Type*) where
  area : K
  id : Raw8
  reg : Option Region
  loc : Vector2 K
  height : K
  conf : K
  dist : K
  angle : K
  next_angle_dist : K
  next_dist : K
  next : Option Nat

/-- `markers` is the memory that the pointer points to; what is allocated are
the `num_markers` entries from its beginning. -/
structure Pattern (K : Type*) where
  enabled : Bool
  markers : Nat → Marker K
  num_markers : Int
  marker_mean : Vector2 K
  pattern : PatternCode
  height : K
  robot_id : Int

structure PatternFitParameters (K : Type*) where
  fit_max_error : K
  fit_variance : K
  fit_uniform : K
  fit_area_weight : K
  fit_cen_dist_weight : K
  fit_next_dist_weight : K
  fit_next_angle_dist_weight : K

structure PatternDetectionResult (K : Type*) where
  loc : Vector2 K
  angle : K
  conf : K
  id : Int
  idx : Nat

variable {K : Type*} [Field K]

def Marker.reset : Marker K where
  area := 0
  id := 0
  reg := none
  loc := .zero
  height := 0
  conf := 0
  dist := 0
  angle := 0
  next_angle_dist := 0
  next_dist := 0
  next := none

def PatternFitParameters.reset : PatternFitParameters K where
  fit_max_error := 0
  fit_variance := 1
  fit_uniform := 0.1
  fit_area_weight := 1
  fit_cen_dist_weight := 1
  fit_next_dist_weight := 1
  fit_next_angle_dist_weight := 1

def PatternDetectionResult.reset : PatternDetectionResult K := ⟨.zero, 0, 0, 0, 0⟩

def colorCode (n : Nat) (ids : Nat → Raw8) : PatternCode :=
  (List.range n).foldl (fun pattern i => (pattern <<< 8) ||| (ids i).setWidth 64) 0

-- ---------------------------------------------------------------------------
-- calcFitError
-- ---------------------------------------------------------------------------

def deviation (model marker : K) : K := sq ((model - marker) / model)

def calcFitError (model markers : Nat → Marker K) (num_markers ofs : Nat)
    (fit_params : PatternFitParameters K) : K :=
  let sse := (List.range num_markers).foldl (fun sse i =>
    let j := (i + ofs) % num_markers
    sse +
      (fit_params.fit_area_weight * deviation (model i).area (markers j).area +
       fit_params.fit_cen_dist_weight * deviation (model i).dist (markers j).dist +
       fit_params.fit_next_dist_weight * deviation (model i).next_dist (markers j).next_dist +
       fit_params.fit_next_angle_dist_weight *
        deviation (model i).next_angle_dist (markers j).next_angle_dist)) 0
  sse / num_markers

-- ---------------------------------------------------------------------------
-- findPattern
-- ---------------------------------------------------------------------------

/-- `roll` with room for `MaxMarkers` entries in `tmp`. -/
def roll {α : Type*} (arr : Nat → α) (num : Nat) (displacement : Int) : Option (Nat → α) :=
  let displacement := (displacement.tmod num + num).tmod num
  if displacement.tmod num = 0 then some arr
  else if num ≤ MaxMarkers then
    some ((List.range num).foldl (fun out (i : Nat) =>
      Function.update out (((i : Int) + displacement).tmod num).toNat (arr i)) arr)
  else none

/-- `image2field` of the camera: the coordinates on the plane at the given height. -/
abbrev Camera (K : Type*) := Vector2 K → K → Vector2 K

/-- A marker without a region has no result. -/
def Marker.fixHeight (image2field : Camera K) (m : Marker K) : Option (Marker K) :=
  m.reg.map fun reg => { m with loc := image2field ⟨reg.cen_x, reg.cen_y⟩ m.height }

def fixHeights (image2field : Camera K) (markers : Nat → Marker K) (num_markers : Nat) :
    Option (Nat → Marker K) :=
  (List.range num_markers).foldlM (fun markers i => do
    let m ← (markers i).fixHeight image2field
    some (Function.update markers i m)) markers

def meanLoc (markers : Nat → Marker K) (num_markers : Nat) : Vector2 K :=
  let cen_avg := (List.range num_markers).foldl (fun cen i => cen.add (markers i).loc) Vector2.zero
  cen_avg.div num_markers

def orientation (math : Math K) (model markers : Nat → Marker K) (num_markers : Nat) :
    Vector2 K :=
  (List.range num_markers).foldl (fun orient i =>
    (List.range i).foldl (fun orient j =>
      let vo := (markers i).loc.sub (markers j).loc
      let dir := ((model i).loc.sub (model j).loc).norm math
      orient.add (dir.project_in vo)) orient) Vector2.zero

def SSEVsUniform (math : Math K) (x2 var u : K) : K :=
  let g := math.exp (x2 / (-2 * var))
  g / (g + u)

variable [LinearOrder K]

/-- The colours that a model uses, of `n` possible ones. -/
structure ColorsUsed where
  n : Nat
  used : Nat → Bool

def ColorsUsed.clear (n : Nat) : ColorsUsed := ⟨n, fun _ => false⟩

def ColorsUsed.use (u : ColorsUsed) (color_id : Raw8) : ColorsUsed :=
  if color_id.toNat < u.n then { u with used := Function.update u.used color_id.toNat true } else u

structure MultiPatternModel (K : Type*) where
  patterns : List (Pattern K)
  used : ColorsUsed

namespace MultiPatternModel

/-- The best pair of a pattern and a rotation so far, and the threshold. -/
abbrev Best (K : Type*) := Option (Nat × Nat) × K

def searchPatterns (model : MultiPatternModel K) (markers : Nat → Marker K) (num_markers : Nat)
    (fit_params : PatternFitParameters K) (best : Best K) (ofs : Nat) : Best K :=
  let pattern := colorCode num_markers fun i => (markers ((i + ofs) % num_markers)).id
  (List.range model.patterns.length).foldl (fun best i =>
    match model.patterns[i]? with
    | some p =>
      if p.enabled then
        if p.num_markers = num_markers ∧ p.pattern = pattern then
          let sse := calcFitError p.markers markers num_markers ofs fit_params
          if sse < best.2 then (some (i, ofs), sse) else best
        else best
      else best
    | none => best) best

def search (model : MultiPatternModel K) (markers : Nat → Marker K) (num_markers : Nat)
    (fit_params : PatternFitParameters K) : Best K :=
  (List.range num_markers).foldl (model.searchPatterns markers num_markers fit_params)
    (none, sq fit_params.fit_max_error)

/-- Whether a pattern was found, the result, and the markers afterwards. -/
def findPattern (model : MultiPatternModel K) (math : Math K) (image2field : Camera K)
    (markers : Nat → Marker K) (num_markers : Nat) (fit_params : PatternFitParameters K) :
    Option (Bool × PatternDetectionResult K × (Nat → Marker K)) :=
  match model.search markers num_markers fit_params with
  | (none, _) => some (false, .reset, markers)
  | (some (best_idx, best_ofs), best_sse) => do
    let p ← model.patterns[best_idx]?
    let markers ← fixHeights image2field markers num_markers
    let markers ← roll markers num_markers (num_markers - best_ofs)
    let cen_avg := meanLoc markers num_markers
    let orient := orientation math p.markers markers num_markers
    let bias := (orient.norm math).project_out p.marker_mean
    some (true,
      { id := p.robot_id
        idx := best_idx
        loc := cen_avg.sub bias
        angle := orient.angle math
        conf := SSEVsUniform math best_sse fit_params.fit_variance fit_params.fit_uniform },
      markers)

end MultiPatternModel

end LARCmaCS.CMPattern
