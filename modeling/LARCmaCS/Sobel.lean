import LARCmaCS.Lib.Loop
import Mathlib.Algebra.BigOperators.Group.List.Basic
import Mathlib.Algebra.Order.Ring.Int

/-!
# Edge filters

`Sobel` of `sobel.h`. The vertical filters are meant to be the horizontal ones
on the transposed image, but weigh the pixel above to the left twice and leave
out the one above to the right (`transposes_iff`).
-/

namespace LARCmaCS

abbrev Grey := BitVec 8

structure GreyImage where
  width : Nat
  height : Nat
  data : Nat → Grey

namespace GreyImage

def Inside (img : GreyImage) (x y : Int) : Prop := 0 ≤ x ∧ 0 ≤ y ∧ x < img.width ∧ y < img.height

instance (img : GreyImage) (x y : Int) : Decidable (img.Inside x y) :=
  inferInstanceAs (Decidable (_ ∧ _))

/-- A pixel outside the image has no result. -/
def getPixel (img : GreyImage) (x y : Int) : Option Grey :=
  if img.Inside x y then some (img.data (img.width * y + x).toNat) else none

def transpose (img : GreyImage) : GreyImage where
  width := img.height
  height := img.width
  data k := img.data (img.width * (k % img.height) + k / img.height)

end GreyImage

namespace Sobel

/-- A convolution: the sum of the weighted pixels if it is above the threshold. -/
def convolve (img : GreyImage) (threshold : Int) (taps : List (Int × Int × Int)) : Option Int := do
  let terms ← taps.mapM fun (weight, x, y) =>
    (img.getPixel x y).map fun v => weight * (v.toNat : Int)
  let sobel := terms.sum
  some (if sobel > threshold then sobel else 0)

abbrev Filter := GreyImage → Int → Int → Int → Option Int

def horizontalBrighter : Filter := fun img x y threshold =>
  convolve img threshold
    [(-1, x - 1, y - 1), (-2, x - 1, y), (-1, x - 1, y + 1),
      (1, x + 1, y - 1), (2, x + 1, y), (1, x + 1, y + 1)]

def horizontalDarker : Filter := fun img x y threshold =>
  convolve img threshold
    [(1, x - 1, y - 1), (2, x - 1, y), (1, x - 1, y + 1),
      (-1, x + 1, y - 1), (-2, x + 1, y), (-1, x + 1, y + 1)]

def verticalBrighter : Filter := fun img x y threshold =>
  convolve img threshold
    [(-1, x - 1, y - 1), (-2, x, y - 1), (-1, x - 1, y - 1),
      (1, x - 1, y + 1), (2, x, y + 1), (1, x + 1, y + 1)]

def verticalDarker : Filter := fun img x y threshold =>
  convolve img threshold
    [(1, x - 1, y - 1), (2, x, y - 1), (1, x - 1, y - 1),
      (-1, x - 1, y + 1), (-2, x, y + 1), (-1, x + 1, y + 1)]

-- ---------------------------------------------------------------------------
-- The scans
-- ---------------------------------------------------------------------------

/-- `for(v = start; v <= stop; ++v)` -/
def scan {State : Type} (start stop : Int) (step : State → Int → Option State) (s : State) :
    Option State :=
  (List.range (stop + 1 - start).toNat).foldlM (fun s (k : Nat) => step s (start + k)) s

/-- The position of the largest response so far, and that response. -/
abbrev Peak := Int × Int

def Peak.update (peak : Peak) (v currentEdge : Int) : Peak :=
  if currentEdge > peak.2 then (v, currentEdge) else peak

def maximumEdge (start stop : Int) (f : Int → Option Int) : Option Int :=
  (scan start stop (fun peak v => (f v).map fun edge => Peak.update peak v edge)
    (-1, 0)).map Prod.fst

def maximumHorizontalEdge (img : GreyImage) (y xStart xEnd threshold : Int) (f : Filter) :
    Option Int :=
  maximumEdge xStart xEnd fun x => f img x y threshold

def maximumVerticalEdge (img : GreyImage) (x yStart yEnd threshold : Int) (f : Filter) :
    Option Int :=
  maximumEdge yStart yEnd fun y => f img x y threshold

def centerOfEdges (start stop : Int) (darker brighter : Int → Option Int) : Option Int :=
  (scan start stop (fun (dark, bright) v => do
    let currentDarkEdge ← darker v
    let currentBrightEdge ← brighter v
    some (Peak.update dark v currentDarkEdge, Peak.update bright v currentBrightEdge))
    (((0, 0), (0, 0)) : Peak × Peak)).map fun (dark, bright) => (bright.1 + dark.1).tdiv 2

def centerOfHorizontalLine (img : GreyImage) (x yStart yEnd threshold : Int) : Option Int :=
  centerOfEdges yStart yEnd (fun y => verticalDarker img x y threshold)
    fun y => verticalBrighter img x y threshold

def centerOfVerticalLine (img : GreyImage) (y xStart xEnd threshold : Int) : Option Int :=
  centerOfEdges xStart xEnd (fun x => horizontalDarker img x y threshold)
    fun x => horizontalBrighter img x y threshold

-- ---------------------------------------------------------------------------
-- Transposed images
-- ---------------------------------------------------------------------------

def Interior (img : GreyImage) (x y : Int) : Prop :=
  1 ≤ x ∧ 1 ≤ y ∧ x + 1 < img.width ∧ y + 1 < img.height

/-- The vertical filters and scans are the horizontal ones on the transposed
image, wherever they look at interior pixels only. -/
structure Transposes (img : GreyImage) : Prop where
  brighter : ∀ x y, Interior img x y → ∀ threshold,
    verticalBrighter img x y threshold = horizontalBrighter img.transpose y x threshold
  darker : ∀ x y, Interior img x y → ∀ threshold,
    verticalDarker img x y threshold = horizontalDarker img.transpose y x threshold
  maximumBrighter : ∀ x yStart yEnd, (∀ y, yStart ≤ y → y ≤ yEnd → Interior img x y) →
    ∀ threshold, maximumVerticalEdge img x yStart yEnd threshold verticalBrighter =
      maximumHorizontalEdge img.transpose x yStart yEnd threshold horizontalBrighter
  maximumDarker : ∀ x yStart yEnd, (∀ y, yStart ≤ y → y ≤ yEnd → Interior img x y) →
    ∀ threshold, maximumVerticalEdge img x yStart yEnd threshold verticalDarker =
      maximumHorizontalEdge img.transpose x yStart yEnd threshold horizontalDarker
  center : ∀ x yStart yEnd, (∀ y, yStart ≤ y → y ≤ yEnd → Interior img x y) →
    ∀ threshold, centerOfHorizontalLine img x yStart yEnd threshold =
      centerOfVerticalLine img.transpose x yStart yEnd threshold

end Sobel

namespace GreyImage

theorem inside_transpose {img : GreyImage} {x y : Int} :
    img.transpose.Inside y x ↔ img.Inside x y := by
  simp only [Inside, transpose]
  omega

theorem data_transpose (img : GreyImage) {x y : Nat} (hy : y < img.height) :
    img.transpose.data (img.height * x + y) = img.data (img.width * y + x) := by
  have hmod : (img.height * x + y) % img.height = y := by
    rw [Nat.mul_add_mod, Nat.mod_eq_of_lt hy]
  have hdiv : (img.height * x + y) / img.height = x := by
    rw [Nat.mul_add_div (Nat.zero_lt_of_lt hy), Nat.div_eq_of_lt hy, Nat.add_zero]
  calc img.transpose.data (img.height * x + y)
    _ = img.data (img.width * ((img.height * x + y) % img.height) +
        (img.height * x + y) / img.height) := rfl
    _ = img.data (img.width * y + x) := by rw [hmod, hdiv]

theorem getPixel_transpose (img : GreyImage) (x y : Int) :
    img.transpose.getPixel y x = img.getPixel x y := by
  by_cases h : img.Inside x y
  · rw [getPixel, getPixel, if_pos h, if_pos (inside_transpose.mpr h)]
    obtain ⟨hx, hy, -, hheight⟩ := h
    lift x to Nat using hx
    lift y to Nat using hy
    exact congrArg some (data_transpose img (by omega))
  · rw [getPixel, getPixel, if_neg h, if_neg (mt inside_transpose.mp h)]

def grey (img : GreyImage) (x y : Int) : Int := (img.data (img.width * y + x).toNat).toNat

end GreyImage

namespace Sobel

variable {img : GreyImage} {x y start stop threshold : Int} {taps taps' : List (Int × Int × Int)}

theorem convolve_transpose (img : GreyImage) (threshold : Int) (taps : List (Int × Int × Int)) :
    convolve img.transpose threshold (taps.map fun (weight, x, y) => (weight, y, x)) =
      convolve img threshold taps := by
  simp only [convolve, List.mapM_map, Function.comp_def, GreyImage.getPixel_transpose]

def weighted (img : GreyImage) (taps : List (Int × Int × Int)) : Int :=
  (taps.map fun (weight, x, y) => weight * img.grey x y).sum

theorem mapM_of_inside (h : ∀ tap ∈ taps, img.Inside tap.2.1 tap.2.2) :
    (taps.mapM fun (weight, x, y) => (img.getPixel x y).map fun v => weight * (v.toNat : Int)) =
      some (taps.map fun (weight, x, y) => weight * img.grey x y) := by
  induction taps with
  | nil => rfl
  | cons tap taps ih =>
    obtain ⟨weight, x, y⟩ := tap
    have hpixel : img.getPixel x y = some (img.data (img.width * y + x).toNat) :=
      if_pos (h (weight, x, y) List.mem_cons_self)
    rw [List.mapM_cons, ih fun t ht => h t (List.mem_cons_of_mem _ ht)]
    simp only [hpixel]
    rfl

theorem convolve_of_inside (h : ∀ tap ∈ taps, img.Inside tap.2.1 tap.2.2) (threshold : Int) :
    convolve img threshold taps =
      some (if weighted img taps > threshold then weighted img taps else 0) := by
  rw [convolve, mapM_of_inside h]
  rfl

theorem convolve_eq_iff (h : ∀ tap ∈ taps, img.Inside tap.2.1 tap.2.2)
    (h' : ∀ tap ∈ taps', img.Inside tap.2.1 tap.2.2) :
    (∀ threshold, convolve img threshold taps = convolve img threshold taps') ↔
      weighted img taps = weighted img taps' := by
  simp only [convolve_of_inside h, convolve_of_inside h', Option.some.injEq]
  constructor
  · intro hsame
    have hlow := hsame (min (weighted img taps) (weighted img taps') - 1)
    rwa [if_pos (by omega), if_pos (by omega)] at hlow
  · intro hsum threshold
    rw [hsum]

/-- The vertical filter of weight `w` differs from the transposed one in its third tap. -/
theorem vertical_iff (h : Interior img x y) {w : Int} (hw : w ≠ 0) :
    (∀ threshold,
      convolve img threshold
          [(w, x - 1, y - 1), (2 * w, x, y - 1), (w, x - 1, y - 1),
            (-w, x - 1, y + 1), (-2 * w, x, y + 1), (-w, x + 1, y + 1)] =
        convolve img.transpose threshold
          [(w, y - 1, x - 1), (2 * w, y - 1, x), (w, y - 1, x + 1),
            (-w, y + 1, x - 1), (-2 * w, y + 1, x), (-w, y + 1, x + 1)]) ↔
      img.grey (x - 1) (y - 1) = img.grey (x + 1) (y - 1) := by
  obtain ⟨hx, hy, hwidth, hheight⟩ := h
  have htranspose (threshold : Int) := convolve_transpose img threshold
    [(w, x - 1, y - 1), (2 * w, x, y - 1), (w, x + 1, y - 1),
      (-w, x - 1, y + 1), (-2 * w, x, y + 1), (-w, x + 1, y + 1)]
  simp only [List.map_cons, List.map_nil] at htranspose
  simp only [htranspose]
  rw [convolve_eq_iff (by simp [GreyImage.Inside]; omega) (by simp [GreyImage.Inside]; omega)]
  simp [weighted, hw]

theorem verticalBrighter_iff (h : Interior img x y) :
    (∀ threshold,
      verticalBrighter img x y threshold = horizontalBrighter img.transpose y x threshold) ↔
      img.grey (x - 1) (y - 1) = img.grey (x + 1) (y - 1) :=
  vertical_iff h (w := -1) (by decide)

theorem verticalDarker_iff (h : Interior img x y) :
    (∀ threshold,
      verticalDarker img x y threshold = horizontalDarker img.transpose y x threshold) ↔
      img.grey (x - 1) (y - 1) = img.grey (x + 1) (y - 1) :=
  vertical_iff h (w := 1) (by decide)

-- ---------------------------------------------------------------------------
-- Scans of equal responses
-- ---------------------------------------------------------------------------

theorem scan_congr {State : Type} {step step' : State → Int → Option State} {s : State}
    (h : ∀ v, start ≤ v → v ≤ stop → ∀ t, step t v = step' t v) :
    scan start stop step s = scan start stop step' s := by
  rw [scan, scan]
  refine Loop.congr fun k hk t => h (start + k) ?_ ?_ t <;> omega

theorem maximumEdge_congr {f g : Int → Option Int} (h : ∀ v, start ≤ v → v ≤ stop → f v = g v) :
    maximumEdge start stop f = maximumEdge start stop g := by
  rw [maximumEdge, maximumEdge, scan_congr fun v hstart hstop t => by rw [h v hstart hstop]]

theorem centerOfEdges_congr {dark dark' bright bright' : Int → Option Int}
    (hdark : ∀ v, start ≤ v → v ≤ stop → dark v = dark' v)
    (hbright : ∀ v, start ≤ v → v ≤ stop → bright v = bright' v) :
    centerOfEdges start stop dark bright = centerOfEdges start stop dark' bright' := by
  rw [centerOfEdges, centerOfEdges, scan_congr fun v hstart hstop t => by
    rw [hdark v hstart hstop, hbright v hstart hstop]]

/-- The filters are transposes of each other exactly on the images in which
pixels two columns apart are equal, in the rows above the interior pixels. -/
theorem transposes_iff (img : GreyImage) :
    Transposes img ↔
      ∀ x y, Interior img x y → img.grey (x - 1) (y - 1) = img.grey (x + 1) (y - 1) := by
  constructor
  · intro h x y hinterior
    exact (verticalBrighter_iff hinterior).mp (h.brighter x y hinterior)
  · intro h
    have hbrighter {x y : Int} (hinterior : Interior img x y) (threshold : Int) :=
      (verticalBrighter_iff hinterior).mpr (h x y hinterior) threshold
    have hdarker {x y : Int} (hinterior : Interior img x y) (threshold : Int) :=
      (verticalDarker_iff hinterior).mpr (h x y hinterior) threshold
    exact
      { brighter := fun x y => hbrighter
        darker := fun x y => hdarker
        maximumBrighter := fun x yStart yEnd hrange threshold =>
          maximumEdge_congr fun y hstart hstop => hbrighter (hrange y hstart hstop) threshold
        maximumDarker := fun x yStart yEnd hrange threshold =>
          maximumEdge_congr fun y hstart hstop => hdarker (hrange y hstart hstop) threshold
        center := fun x yStart yEnd hrange threshold =>
          centerOfEdges_congr (fun y hstart hstop => hdarker (hrange y hstart hstop) threshold)
            fun y hstart hstop => hbrighter (hrange y hstart hstop) threshold }

def brightCorner : GreyImage := ⟨3, 3, fun k => if k = 0 then 100 else 0⟩

theorem not_transposes_brightCorner : ¬Transposes brightCorner := by
  intro h
  have hdarker := h.darker 1 1 ⟨by decide, by decide, by decide, by decide⟩ 0
  exact absurd hdarker (by decide)

end Sobel

end LARCmaCS
