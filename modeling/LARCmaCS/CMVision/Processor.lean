import LARCmaCS.CMVision.Blobs
import LARCmaCS.CMVision.ColorLists
import LARCmaCS.CMVision.Threshold

/-!
# The image processor

`ImageProcessor` of `cmvision_region.cpp`, from an image to the sorted regions
of each colour. It warns exactly if one of its tables was too small for the
image (`processThresholded_silent_iff`), and if it does not, its lists are the
coloured regions of the image (`processThresholded_lists`), whose colours are
those of the lookup table (`processYUV422_UYVY_sees`).
-/

namespace LARCmaCS.CMVision

-- ---------------------------------------------------------------------------
-- thresholdImageYUV444
-- ---------------------------------------------------------------------------

structure Yuv where
  y : BitVec 8
  u : BitVec 8
  v : BitVec 8

/-- Pixel `k` of the image, seen as an array of `yuv`. -/
def RawImage.yuv (img : RawImage) (k : Nat) : Option Yuv := do
  let y ← img.data.read (3 * k)
  let u ← img.data.read (3 * k + 1)
  let v ← img.data.read (3 * k + 2)
  some ⟨y, u, v⟩

def thresholdPixel (source : RawImage) (lut : LUT3D) (target : Image) (i : Nat) : Option Image := do
  let p ← source.yuv i
  target.setPixel i (lut.LUT ((p.y.toNat >>> lut.X_SHIFT) <<< lut.Z_AND_Y_BITS |||
    (p.u.toNat >>> lut.Y_SHIFT) <<< lut.Z_BITS ||| p.v.toNat >>> lut.Z_SHIFT))

def thresholdImageYUV444 (target : Image) (source : RawImage) (lut : LUT3D) :
    Option (Bool × Image) :=
  if source.format ≠ .COLOR_YUV444 then some (false, target)
  else
    let target_size := target.getNumPixels
    if target.getNumPixels ≠ source.getNumPixels then some (false, target)
    else ((List.range target_size).foldlM (thresholdPixel source lut) target).map (true, ·)

-- ---------------------------------------------------------------------------
-- ImageProcessor
-- ---------------------------------------------------------------------------

/-- New memory holds anything, here what the image had. -/
def Image.allocate (img : Image) (w h : Nat) : Image := { img with width := w, height := h }

structure ImageProcessor where
  lut : LUT3D
  reglist : RegionList
  colorlist : ColorRegionList
  runlist : RunList
  img_thresholded : Image

inductive Warning where
  | maxRuns (n : Nat)
  | maxRegions (n : Nat)
  deriving DecidableEq

namespace ImageProcessor

/-- The processor afterwards, and the warnings that it printed. The loops of
the sort see a region of the table at most once. -/
def processThresholded (p : ImageProcessor) (img_thresholded : Image) (min_blob_area : Int) :
    Option (ImageProcessor × List Warning) := do
  let runlist ← encodeRuns img_thresholded p.runlist
  let warnRuns := if runlist.usedRuns = runlist.maxRuns then [.maxRuns runlist.maxRuns] else []
  let runlist ← connectComponents runlist
  let (reglist, runlist) ← extractRegions p.reglist runlist
  let warnRegions :=
    if reglist.usedRegions = reglist.maxRegions then [.maxRegions reglist.maxRegions] else []
  let (colorlist, max_area) := separateRegions p.colorlist reglist min_blob_area
  let colorlist ← sortRegions reglist.usedRegions colorlist reglist max_area
  some ({ p with reglist, colorlist, runlist }, warnRuns ++ warnRegions)

/-- What the thresholding returns is not looked at. -/
def processYUV422_UYVY (p : ImageProcessor) (image : RawImage) (min_blob_area : Int) :
    Option (ImageProcessor × List Warning) := do
  let (_, img) ← thresholdImageYUV422_UYVY (p.img_thresholded.allocate image.width image.height)
    image p.lut
  { p with img_thresholded := img }.processThresholded img min_blob_area

def processYUV444 (p : ImageProcessor) (image : RawImage) (min_blob_area : Int) :
    Option (ImageProcessor × List Warning) := do
  let (_, img) ← thresholdImageYUV444 (p.img_thresholded.allocate image.width image.height)
    image p.lut
  { p with img_thresholded := img }.processThresholded img min_blob_area

end ImageProcessor

-- ---------------------------------------------------------------------------
-- The lists of a thresholded image
-- ---------------------------------------------------------------------------

/-- The list of colour `c` is `xs`: the regions of the image that have the
colour and at least `minArea` pixels, each measured once, the largest first.
`seed b` is a pixel of region `b`. -/
structure ListsRegions (tmap : Image) (p : ImageProcessor) (minArea : Int) (c : Nat) (xs : List Nat)
    (seed : Nat → Pixel) : Prop where
  chain : Linked.Chain p.colorlist.next (p.colorlist.colorRegions c).first xs
  num : (p.colorlist.colorRegions c).num = xs.length
  measures : ∀ b ∈ xs, tmap.At (seed b) ∧ tmap.pixel (seed b).1 (seed b).2 ≠ 0 ∧
    (tmap.pixel (seed b).1 (seed b).2).toNat = c ∧
    ∃ ps, IsRegionOf tmap (seed b) ps ∧ Measures tmap ps (p.reglist.regions b) ∧
      minArea ≤ ps.length
  apart : xs.Pairwise fun b b' => ¬SameRegion tmap (seed b) (seed b')
  cover : ∀ q ps, tmap.At q → tmap.pixel q.1 q.2 ≠ 0 → (tmap.pixel q.1 q.2).toNat = c →
    IsRegionOf tmap q ps → minArea ≤ ps.length → ∃ b ∈ xs, SameRegion tmap (seed b) q
  descending : xs.Pairwise fun b b' => (p.reglist.regions b').area ≤ (p.reglist.regions b).area

theorem RegionsOf.listsRegions {tmap : Image} {p : ImageProcessor} {seed : Nat → Pixel}
    (h : RegionsOf tmap p.reglist seed) {minArea : Int} {c : Nat} {xs : List Nat}
    (hxs : p.colorlist.Complete p.reglist minArea c xs) :
    ListsRegions tmap p minArea c xs seed := by
  have hcolor (b : Nat) (hb : b < p.reglist.usedRegions) :
      (tmap.pixel (seed b).1 (seed b).2).toNat = p.reglist.colorOf b := by
    obtain ⟨ps, hregion, hmeasures⟩ := h.measures b hb
    have hseed : seed b ∈ ps := (hregion.mem _).mpr ⟨(h.colored b hb).1, .refl⟩
    rw [hmeasures.color _ hseed]
    rfl
  refine ⟨hxs.chain, hxs.num, fun b hb => ?_, ?_, fun q ps hq hne hc hregion harea => ?_, ?_⟩
  · obtain ⟨hused, hc, harea⟩ := (hxs.mem b).mp hb
    obtain ⟨ps, hregion, hmeasures⟩ := h.measures b hused
    refine ⟨(h.colored b hused).1, (h.colored b hused).2, (hcolor b hused).trans hc, ps, hregion,
      hmeasures, ?_⟩
    have hsame : p.reglist.areaOf b = ps.length := hmeasures.area
    rwa [← hsame]
  · refine hxs.nodup.imp_of_mem fun {b b'} hb hb' hne hsame => hne ?_
    exact h.apart b ((hxs.mem b).mp hb).1 b' ((hxs.mem b').mp hb').1 hsame
  · obtain ⟨b, hused, hsame⟩ := h.cover q hq hne
    obtain ⟨qs, hregion', hmeasures⟩ := h.measures b hused
    have hlength : p.reglist.areaOf b = ps.length :=
      hmeasures.area.trans ((hregion'.congr hsame).perm hregion).length_eq
    refine ⟨b, (hxs.mem b).mpr ⟨hused, ?_, by rwa [hlength]⟩, hsame⟩
    rw [← hcolor b hused, SameRegion.color hsame, hc]
  · refine hxs.descending.imp fun {b b'} hbb' => ?_
    rcases hbb' with hlt | ⟨heq, -⟩
    · exact Nat.le_of_lt hlt
    · exact Nat.le_of_eq heq.symm

namespace ImageProcessor

variable {p : ImageProcessor} {tmap : Image}

theorem connected_runs (hwidth : 1 ≤ tmap.width) (hheight : 2 ≤ tmap.height) {l : RunList}
    (hruns : tmap.runCount < l.maxRuns) :
    ∃ encoded connected, encodeRuns tmap l = some encoded ∧ encoded.usedRuns = tmap.runCount ∧
      encoded.maxRuns = l.maxRuns ∧ connectComponents encoded = some connected ∧
      connected.usedRuns ≤ connected.maxRuns ∧ Connected tmap connected := by
  obtain ⟨f, hencode⟩ := encodeRuns_fill tmap (Nat.zero_lt_of_lt hruns)
  have hencode := hencode l rfl
  rw [Nat.min_eq_right (Nat.le_of_lt hruns)] at hencode
  obtain ⟨l', hl', -, hspec⟩ := encodeRuns_spec hwidth l (Nat.zero_lt_of_lt hruns)
  obtain rfl := Option.some.inj (hencode.symm.trans hl')
  obtain ⟨connected, hconnect, hused, hmax, hconnected⟩ := (hspec hruns).connected hheight hruns
  exact ⟨_, connected, hencode, rfl, rfl, hconnect, by rw [hused, hmax]; exact Nat.le_of_lt hruns,
    hconnected⟩

/-- With room for the runs, the processor has a result, and warns if the image
has as many regions as the table. -/
theorem processThresholded_of_runs (p : ImageProcessor) (tmap : Image) (hwidth : 1 ≤ tmap.width)
    (hheight : 2 ≤ tmap.height) (hruns : tmap.runCount < p.runlist.maxRuns)
    (hregs : 0 < p.reglist.maxRegions) (minArea : Int) :
    ∃ p' warnings, p.processThresholded tmap minArea = some (p', warnings) ∧
      (warnings = [] ↔ tmap.FewerRegions p.reglist.maxRegions) ∧
      p'.colorlist.numColorRegions = p.colorlist.numColorRegions ∧
      (tmap.FewerRegions p.reglist.maxRegions → ∃ seed, ∀ c < p.colorlist.numColorRegions,
        ∃ xs, ListsRegions tmap p' minArea c xs seed) := by
  obtain ⟨encoded, connected, hencode, hcount, hmax, hconnect, hused, hconnected⟩ :=
    connected_runs hwidth hheight hruns
  obtain ⟨reg, rmap, hextract, hmaxRegs, husedRegs⟩ :=
    extractRegions_used hconnected.grouped hused hregs
  obtain ⟨after, hsort, hcolors, hcomplete⟩ := p.colorlist.complete_lists reg minArea (Nat.le_refl _)
  have hresult : p.processThresholded tmap minArea = some
      ({ p with reglist := reg, colorlist := after, runlist := rmap },
        if reg.usedRegions = reg.maxRegions then [.maxRegions reg.maxRegions] else []) := by
    have hne : encoded.usedRuns ≠ encoded.maxRuns := by omega
    simp [processThresholded, hencode, hne, hconnect, hextract, hsort]
  refine ⟨_, _, hresult, ?_, hcolors, fun hfewer => ?_⟩
  · rw [← hconnected.roots_lt_iff]
    simp only [ite_eq_right_iff, List.cons_ne_nil, imp_false]
    omega
  · obtain ⟨reg', rmap', seed, hextract', hregions⟩ := hconnected.extractRegions hused hfewer
    obtain ⟨rfl, rfl⟩ := Prod.mk.inj (Option.some.inj (hextract.symm.trans hextract'))
    exact ⟨seed, fun c hc => (hcomplete c hc).imp fun xs hxs => hregions.listsRegions hxs⟩

/-- A full run buffer leaves the sweep without a result. -/
theorem runCount_lt (hmaxRuns : 0 < p.runlist.maxRuns) {minArea : Int}
    {r : ImageProcessor × List Warning} (h : p.processThresholded tmap minArea = some r) :
    tmap.runCount < p.runlist.maxRuns := by
  obtain ⟨f, hencode⟩ := encodeRuns_fill tmap hmaxRuns
  have hencode := hencode p.runlist rfl
  by_contra hle
  have hfull : connectComponents ⟨fun k => if k < min p.runlist.maxRuns tmap.runCount then f k
      else p.runlist.runs k, p.runlist.maxRuns, min p.runlist.maxRuns tmap.runCount⟩ = none :=
    connectComponents_full (show p.runlist.maxRuns ≤ min p.runlist.maxRuns tmap.runCount by omega)
  simp only [processThresholded, hencode, Option.bind_eq_bind, Option.bind_some, hfull,
    Option.bind_none] at h
  cases h

/-- The processor has a result without a warning exactly if both tables are
larger than what the image needs. -/
theorem processThresholded_silent_iff (p : ImageProcessor) (tmap : Image) (minArea : Int)
    (hwidth : 1 ≤ tmap.width) (hheight : 2 ≤ tmap.height) (hmaxRuns : 0 < p.runlist.maxRuns)
    (hregs : 0 < p.reglist.maxRegions) :
    (∃ p', p.processThresholded tmap minArea = some (p', [])) ↔
      tmap.runCount < p.runlist.maxRuns ∧ tmap.FewerRegions p.reglist.maxRegions := by
  constructor
  · rintro ⟨p', h⟩
    have hruns := runCount_lt hmaxRuns h
    obtain ⟨_, warnings, h', hwarn, -⟩ :=
      processThresholded_of_runs p tmap hwidth hheight hruns hregs minArea
    obtain ⟨-, rfl⟩ := Prod.mk.inj (Option.some.inj (h.symm.trans h'))
    exact ⟨hruns, hwarn.mp rfl⟩
  · rintro ⟨hruns, hfewer⟩
    obtain ⟨p', warnings, h, hwarn, -⟩ :=
      processThresholded_of_runs p tmap hwidth hheight hruns hregs minArea
    exact ⟨p', by rw [h, hwarn.mpr hfewer]⟩

/-- Without a warning every colour's list is that of the image's regions. -/
theorem processThresholded_lists (p : ImageProcessor) (tmap : Image) (minArea : Int)
    (hwidth : 1 ≤ tmap.width) (hheight : 2 ≤ tmap.height) (hmaxRuns : 0 < p.runlist.maxRuns)
    (hregs : 0 < p.reglist.maxRegions) {p' : ImageProcessor}
    (h : p.processThresholded tmap minArea = some (p', [])) :
    p'.colorlist.numColorRegions = p.colorlist.numColorRegions ∧
      ∃ seed, ∀ c < p.colorlist.numColorRegions, ∃ xs, ListsRegions tmap p' minArea c xs seed := by
  obtain ⟨_, warnings, h', hwarn, hcolors, hlists⟩ :=
    processThresholded_of_runs p tmap hwidth hheight (runCount_lt hmaxRuns h) hregs minArea
  obtain ⟨rfl, rfl⟩ := Prod.mk.inj (Option.some.inj (h.symm.trans h'))
  exact ⟨hcolors, hlists (hwarn.mp rfl)⟩

theorem runCount_le (tmap : Image) : tmap.runCount ≤ tmap.width * tmap.height := by
  have hrow (y : Nat) : tmap.rowRuns y 0 ≤ tmap.width := by
    calc tmap.rowRuns y 0 ≤ (List.range' 0 (tmap.width - 0)).length := List.countP_le_length
      _ = tmap.width := by rw [List.length_range', Nat.sub_zero]
  rw [Image.runCount]
  induction tmap.height with
  | zero => exact Nat.zero_le _
  | succ n ih =>
    rw [List.range_succ, List.map_append, List.sum_append, List.map_singleton, List.sum_singleton,
      Nat.mul_succ]
    exact Nat.add_le_add ih (hrow n)

theorem processThresholded_of_pixels (p : ImageProcessor) (tmap : Image) (minArea : Int)
    (hwidth : 1 ≤ tmap.width) (hheight : 2 ≤ tmap.height)
    (hruns : tmap.width * tmap.height < p.runlist.maxRuns)
    (hregs : tmap.width * tmap.height < p.reglist.maxRegions) :
    ∃ p', p.processThresholded tmap minArea = some (p', []) := by
  obtain ⟨p', warnings, h, hwarn, -⟩ := processThresholded_of_runs p tmap hwidth hheight
    (Nat.lt_of_le_of_lt (runCount_le tmap) hruns) (Nat.zero_lt_of_lt hregs) minArea
  exact ⟨p', by rw [h, hwarn.mpr (tmap.fewerRegions_of_pixels hregs)]⟩

def smallProcessor : ImageProcessor where
  lut := fullTable
  reglist := ⟨fun _ => ⟨0, 0, 0, 0, 0, 0, 0, 0, 0, 0⟩, 7, 0⟩
  colorlist := ⟨4, fun _ => .reset, fun _ => none⟩
  runlist := ⟨fun _ => ⟨0, 0, 0, 0, 0, 0⟩, 7, 0⟩
  img_thresholded := clearRow 0

def greenField : Image := ⟨3, 2, fun _ => 1⟩

theorem processThresholded_silent_iff_green :
    ∃ p', smallProcessor.processThresholded greenField 1 = some (p', []) :=
  (processThresholded_silent_iff smallProcessor greenField 1 (by decide) (by decide) (by decide)
    (by decide)).mpr ⟨by decide, greenField.fewerRegions_of_pixels (by decide)⟩

theorem processThresholded_lists_green :
    ∃ p' seed, ∀ c < 4, ∃ xs, ListsRegions greenField p' 1 c xs seed := by
  obtain ⟨p', h⟩ := processThresholded_of_pixels smallProcessor greenField 1 (by decide) (by decide)
    (by decide) (by decide)
  exact ⟨p', (processThresholded_lists smallProcessor greenField 1 (by decide) (by decide)
    (by decide) (by decide) h).2⟩

end ImageProcessor

-- ---------------------------------------------------------------------------
-- From the colours of the image
-- ---------------------------------------------------------------------------

def lookedUpYUV444 (source : RawImage) (lut : LUT3D) (k : Nat) : Raw8 :=
  lut.get (source.data.data (3 * k)) (source.data.data (3 * k + 1)) (source.data.data (3 * k + 2))

section Threshold

variable {source : RawImage} {k : Nat}

theorem RawImage.yuv_of_lt (hformat : source.format = .COLOR_YUV444)
    (hk : k < source.getNumPixels) : source.yuv k = some ⟨source.data.data (3 * k),
      source.data.data (3 * k + 1), source.data.data (3 * k + 2)⟩ := by
  have hsize : source.data.size = source.getNumPixels * 3 := by
    rw [source.size_data, hformat]
    rfl
  simp only [yuv, Buffer.read_of_lt (show 3 * k < source.data.size by omega),
    Buffer.read_of_lt (show 3 * k + 1 < source.data.size by omega),
    Buffer.read_of_lt (show 3 * k + 2 < source.data.size by omega), Option.bind_eq_bind,
    Option.bind_some]

theorem thresholdImageYUV444_spec (target : Image) (lut : LUT3D)
    (hformat : source.format = .COLOR_YUV444)
    (hcount : target.getNumPixels = source.getNumPixels) :
    ∃ img, thresholdImageYUV444 target source lut = some (true, img) ∧
      img.width = target.width ∧ img.height = target.height ∧
      ∀ k < target.getNumPixels, img.data k = lookedUpYUV444 source lut k := by
  have hloop : ∃ img, (List.range target.getNumPixels).foldlM (thresholdPixel source lut) target =
      some img ∧ img.width = target.width ∧ img.height = target.height ∧
        ∀ k < target.getNumPixels, img.data k = lookedUpYUV444 source lut k := by
    refine Loop.invariant (P := fun n (img : Image) => img.width = target.width ∧
      img.height = target.height ∧ ∀ k < n, img.data k = lookedUpYUV444 source lut k)
      ⟨rfl, rfl, fun k hk => absurd hk (Nat.not_lt_zero k)⟩ fun i hi img himg => ?_
    obtain ⟨hwidth, hheight, hdata⟩ := himg
    have hroom : i < img.getNumPixels := by
      rw [Image.getNumPixels, hwidth, hheight]
      exact hi
    refine ⟨{ img with data := Function.update img.data i (lookedUpYUV444 source lut i) }, ?_, hwidth,
      hheight, fun k hk => ?_⟩
    · simp only [thresholdPixel, RawImage.yuv_of_lt hformat (hcount ▸ hi), Option.bind_eq_bind,
        Option.bind_some]
      exact Image.setPixel_of_lt hroom
    · rcases Nat.lt_or_eq_of_le (Nat.le_of_lt_succ hk) with hlt | rfl
      · exact (Function.update_of_ne (Nat.ne_of_lt hlt) ..).trans (hdata k hlt)
      · exact Function.update_self ..
  obtain ⟨img, hfold, himg⟩ := hloop
  refine ⟨img, ?_, himg⟩
  rw [thresholdImageYUV444, if_neg (by simp [hformat]), if_neg (by simp [hcount]), hfold]
  rfl

theorem thresholdImageYUV422_UYVY_spec (target : Image) (lut : LUT3D)
    (hformat : source.format = .COLOR_YUV422_UYVY)
    (hcount : target.getNumPixels = source.getNumPixels) (heven : source.getNumPixels % 2 = 0) :
    ∃ img, thresholdImageYUV422_UYVY target source lut = some (true, img) ∧
      img.width = target.width ∧ img.height = target.height ∧
      ∀ k < target.getNumPixels, img.data k = lookedUp source lut k := by
  have hsize := RawImage.size_data_uyvy hformat
  have hloop : ∃ img, (List.range ((target.getNumPixels + 1) / 2)).foldlM
      (thresholdBlock source lut) target = some img ∧
        SetTo target source lut ((target.getNumPixels + 1) / 2) img :=
    Loop.invariant ⟨rfl, rfl, fun k hk => absurd hk (Nat.not_lt_zero k)⟩
      fun k hk t ht => ht.block (by omega) (by omega)
  obtain ⟨img, hfold, hwidth, hheight, hdata⟩ := hloop
  refine ⟨img, ?_, hwidth, hheight, fun k hk => hdata k (by omega)⟩
  rw [thresholdImageYUV422_UYVY, if_neg (by simp [hformat]), if_neg (by simp [hcount]), hfold]
  rfl

end Threshold

namespace ImageProcessor

/-- The processor has looked up every pixel of the image and lists the regions
of what it saw. -/
structure Sees (p p' : ImageProcessor) (image : RawImage) (pixel : Nat → Raw8) (minArea : Int) :
    Prop where
  width : p'.img_thresholded.width = image.width
  height : p'.img_thresholded.height = image.height
  looked : ∀ k < image.getNumPixels, p'.img_thresholded.data k = pixel k
  numColors : p'.colorlist.numColorRegions = p.colorlist.numColorRegions
  lists : ∃ seed, ∀ c < p.colorlist.numColorRegions, ∃ xs,
    ListsRegions p'.img_thresholded p' minArea c xs seed

variable {p p' : ImageProcessor} {image : RawImage} {minArea : Int}

theorem img_thresholded_processThresholded {tmap : Image} {warnings : List Warning}
    (h : p.processThresholded tmap minArea = some (p', warnings)) :
    p'.img_thresholded = p.img_thresholded := by
  simp only [processThresholded, Option.bind_eq_bind, Option.bind_eq_some_iff,
    Option.some.injEq, Prod.mk.injEq] at h
  obtain ⟨_, -, _, -, _, -, _, -, rfl, -⟩ := h
  rfl

theorem sees_of_looked {pixel : Nat → Raw8} {img : Image} (hwidth : 1 ≤ image.width)
    (hheight : 2 ≤ image.height) (hmaxRuns : 0 < p.runlist.maxRuns)
    (hregs : 0 < p.reglist.maxRegions) (himg : img.width = image.width ∧ img.height = image.height ∧
      ∀ k < image.getNumPixels, img.data k = pixel k)
    (h : { p with img_thresholded := img }.processThresholded img minArea = some (p', [])) :
    p.Sees p' image pixel minArea := by
  obtain ⟨himgWidth, himgHeight, hlooked⟩ := himg
  have hsame : p'.img_thresholded = img := img_thresholded_processThresholded h
  obtain ⟨hcolors, hlists⟩ := processThresholded_lists { p with img_thresholded := img } img minArea
    (by omega) (by omega) hmaxRuns hregs h
  exact ⟨by rw [hsame, himgWidth], by rw [hsame, himgHeight], by rwa [hsame], hcolors, by rwa [hsame]⟩

theorem processYUV444_sees (p : ImageProcessor) (image : RawImage) (minArea : Int)
    (hformat : image.format = .COLOR_YUV444) (hwidth : 1 ≤ image.width) (hheight : 2 ≤ image.height)
    (hmaxRuns : 0 < p.runlist.maxRuns) (hregs : 0 < p.reglist.maxRegions) {p' : ImageProcessor}
    (h : p.processYUV444 image minArea = some (p', [])) :
    p.Sees p' image (lookedUpYUV444 image p.lut) minArea := by
  obtain ⟨img, hthreshold, himg⟩ := thresholdImageYUV444_spec
    (p.img_thresholded.allocate image.width image.height) p.lut hformat rfl
  rw [processYUV444, hthreshold] at h
  exact sees_of_looked hwidth hheight hmaxRuns hregs himg h

theorem processYUV422_UYVY_sees (p : ImageProcessor) (image : RawImage) (minArea : Int)
    (hformat : image.format = .COLOR_YUV422_UYVY) (heven : image.getNumPixels % 2 = 0)
    (hwidth : 1 ≤ image.width) (hheight : 2 ≤ image.height)
    (hmaxRuns : 0 < p.runlist.maxRuns) (hregs : 0 < p.reglist.maxRegions) {p' : ImageProcessor}
    (h : p.processYUV422_UYVY image minArea = some (p', [])) :
    p.Sees p' image (lookedUp image p.lut) minArea := by
  obtain ⟨img, hthreshold, himg⟩ := thresholdImageYUV422_UYVY_spec
    (p.img_thresholded.allocate image.width image.height) p.lut hformat rfl heven
  rw [processYUV422_UYVY, hthreshold] at h
  exact sees_of_looked hwidth hheight hmaxRuns hregs himg h

def greySquare : RawImage where
  format := .COLOR_YUV422_UYVY
  width := 2
  height := 2
  data := ⟨2 * 2 * 2, fun _ => 128⟩
  size_data := rfl

theorem processYUV422_UYVY_sees_grey :
    ∃ p', smallProcessor.Sees p' greySquare (lookedUp greySquare fullTable) 1 := by
  obtain ⟨img, hthreshold, hwidth, hheight, -⟩ := thresholdImageYUV422_UYVY_spec
    (smallProcessor.img_thresholded.allocate 2 2) fullTable
    (rfl : greySquare.format = .COLOR_YUV422_UYVY) rfl rfl
  obtain ⟨p', h⟩ := processThresholded_of_pixels { smallProcessor with img_thresholded := img } img 1
    (by rw [hwidth]; decide) (by rw [hheight]; decide)
    (by rw [hwidth, hheight]; exact (by decide : 2 * 2 < 7))
    (by rw [hwidth, hheight]; exact (by decide : 2 * 2 < 7))
  refine ⟨p', processYUV422_UYVY_sees smallProcessor greySquare 1 rfl rfl (by decide) (by decide)
    (by decide) (by decide) ?_⟩
  rw [processYUV422_UYVY]
  exact (congrArg (· >>= _) hthreshold).trans h

end ImageProcessor

end LARCmaCS.CMVision
