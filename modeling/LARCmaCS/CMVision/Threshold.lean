import LARCmaCS.CMVision.Runs
import LARCmaCS.Lib.Buffer
import LARCmaCS.Lib.Loop
import LARCmaCS.Lut3d.Table
import Mathlib.Algebra.Order.Ring.Nat

/-!
# Thresholding

`CMVisionThreshold::thresholdImageYUV422_UYVY` of `cmvision_threshold.cpp`. A
round of its loop takes one block of the source and sets two pixels of the
target, so the last round leaves both buffers if the pixel count is odd
(`thresholds_iff`).
-/

namespace LARCmaCS.LUT3D

def X_SHIFT (t : LUT3D) : Nat := 8 - t.X_BITS

def Y_SHIFT (t : LUT3D) : Nat := 8 - t.Y_BITS

def Z_SHIFT (t : LUT3D) : Nat := 8 - t.Z_BITS

def shrunk (t : LUT3D) (x y z : BitVec 8) : Nat :=
  (x.toNat >>> t.X_SHIFT) <<< t.Z_AND_Y_BITS ||| (y.toNat >>> t.Y_SHIFT) <<< t.Z_BITS |||
    z.toNat >>> t.Z_SHIFT

def get (t : LUT3D) (x y z : BitVec 8) : LutMask := t.LUT (t.shrunk x y z)

theorem shiftRight_lt {bits : Nat} (h : bits ≤ 8) (x : BitVec 8) :
    x.toNat >>> (8 - bits) < 2 ^ bits := by
  rw [Nat.shiftRight_eq_div_pow, Nat.div_lt_iff_lt_mul (Nat.two_pow_pos _), ← Nat.pow_add,
    Nat.add_sub_cancel' h]
  exact x.isLt

theorem shiftLeft_lt {n m bits : Nat} (h : n < 2 ^ bits) : n <<< m < 2 ^ (bits + m) := by
  rw [Nat.shiftLeft_eq, Nat.pow_add]
  exact Nat.mul_lt_mul_of_pos_right h (Nat.two_pow_pos m)

/-- The accessor stays within the table, in its lower half. -/
theorem shrunk_lt (t : LUT3D) (x y z : BitVec 8) : t.shrunk x y z < 2 ^ t.TOTAL_BITS := by
  have hx := shiftLeft_lt (m := t.Y_BITS + t.Z_BITS) (shiftRight_lt t.x_bits_le x)
  have hy := shiftLeft_lt (m := t.Z_BITS) (shiftRight_lt t.y_bits_le y)
  have hz := shiftRight_lt t.z_bits_le z
  have hle {a b : Nat} (h : a ≤ b) : 2 ^ a ≤ 2 ^ b := Nat.pow_le_pow_right (by decide) h
  rw [TOTAL_BITS]
  refine Nat.or_lt_two_pow (Nat.or_lt_two_pow ?_ ?_) ?_
  · exact Nat.lt_of_lt_of_le hx (hle (by omega))
  · exact Nat.lt_of_lt_of_le hy (hle (by omega))
  · exact Nat.lt_of_lt_of_le hz (hle (by omega))

theorem shrunk_lt_LUT_SIZE (t : LUT3D) (x y z : BitVec 8) : t.shrunk x y z < t.LUT_SIZE := by
  have hhalf : t.LUT_SIZE = 2 ^ t.TOTAL_BITS * 2 := by
    rw [LUT_SIZE, Nat.one_shiftLeft, Nat.pow_succ]
  have hlt := t.shrunk_lt x y z
  omega

end LARCmaCS.LUT3D

namespace LARCmaCS.CMVision

inductive ColorFormat where
  | COLOR_UNDEFINED
  | COLOR_RGB8
  | COLOR_RGBA8
  | COLOR_YUV411
  | COLOR_YUV422_UYVY
  | COLOR_YUV422_YUYV
  | COLOR_YUV444
  | COLOR_MONO16
  | COLOR_MONO8
  | COLOR_RGB16
  | COLOR_RAW8
  | COLOR_RAW16
  | COLOR_RAW32
  | COLOR_COUNT
  deriving DecidableEq

def computeImageSize (fmt : ColorFormat) (pixelCount : Nat) : Nat :=
  match fmt with
  | .COLOR_RGB8 => pixelCount * 3
  | .COLOR_RGBA8 => pixelCount * 4
  | .COLOR_YUV444 => pixelCount * 3
  | .COLOR_YUV422_UYVY => pixelCount * 2
  | .COLOR_YUV411 => pixelCount * 3 / 2
  | .COLOR_MONO8 => pixelCount
  | .COLOR_MONO16 => pixelCount * 2
  | _ => 0

structure RawImage where
  format : ColorFormat
  width : Nat
  height : Nat
  data : Buffer (BitVec 8)
  size_data : data.size = computeImageSize format (width * height)

def RawImage.getNumPixels (img : RawImage) : Nat := img.width * img.height

structure Uyvy where
  u : BitVec 8
  y1 : BitVec 8
  v : BitVec 8
  y2 : BitVec 8

/-- Block `k` of the image, seen as an array of blocks. -/
def RawImage.uyvy (img : RawImage) (k : Nat) : Option Uyvy := do
  let u ← img.data.read (4 * k)
  let y1 ← img.data.read (4 * k + 1)
  let v ← img.data.read (4 * k + 2)
  let y2 ← img.data.read (4 * k + 3)
  some ⟨u, y1, v, y2⟩

namespace Image

def getNumPixels (img : Image) : Nat := img.width * img.height

def setPixel (img : Image) (i : Nat) (v : Raw8) : Option Image :=
  if i < img.getNumPixels then some { img with data := Function.update img.data i v } else none

end Image

/-- The round of the loop at `i = 2 * k`. -/
def thresholdBlock (source : RawImage) (lut : LUT3D) (target : Image) (k : Nat) : Option Image := do
  let i := 2 * k
  let p ← source.uyvy (i >>> 0x01)
  let B := (p.u.toNat >>> lut.Y_SHIFT) <<< lut.Z_BITS
  let C := p.v.toNat >>> lut.Z_SHIFT
  let target ← target.setPixel i
    (lut.LUT ((p.y1.toNat >>> lut.X_SHIFT) <<< lut.Z_AND_Y_BITS ||| B ||| C))
  target.setPixel (i + 1) (lut.LUT ((p.y2.toNat >>> lut.X_SHIFT) <<< lut.Z_AND_Y_BITS ||| B ||| C))

def thresholdImageYUV422_UYVY (target : Image) (source : RawImage) (lut : LUT3D) :
    Option (Bool × Image) :=
  if source.format ≠ .COLOR_YUV422_UYVY then some (false, target)
  else
    let target_size := target.getNumPixels
    if target.getNumPixels ≠ source.getNumPixels then some (false, target)
    else
      -- `i` takes the even values below `target_size`
      ((List.range ((target_size + 1) / 2)).foldlM (thresholdBlock source lut) target).map (true, ·)

-- ---------------------------------------------------------------------------
-- The loop
-- ---------------------------------------------------------------------------

/-- What the table holds for pixel `k`: its own luma and the chroma of its
block. -/
def lookedUp (source : RawImage) (lut : LUT3D) (k : Nat) : Raw8 :=
  let block := 4 * (k / 2)
  let Y := if k % 2 = 0 then source.data.data (block + 1) else source.data.data (block + 3)
  lut.get Y (source.data.data block) (source.data.data (block + 2))

/-- The call stays within both images and looks up every pixel. -/
def Thresholds (target : Image) (source : RawImage) (lut : LUT3D) : Prop :=
  ∃ img, thresholdImageYUV422_UYVY target source lut = some (true, img) ∧
    img.width = target.width ∧ img.height = target.height ∧
    ∀ k < target.getNumPixels, img.data k = lookedUp source lut k

variable {source : RawImage} {lut : LUT3D} {target : Image} {k : Nat}

theorem RawImage.size_data_uyvy (hformat : source.format = .COLOR_YUV422_UYVY) :
    source.data.size = source.getNumPixels * 2 := by
  rw [source.size_data, hformat, computeImageSize, getNumPixels]

theorem RawImage.uyvy_of_lt (h : 4 * k + 3 < source.data.size) :
    source.uyvy k = some ⟨source.data.data (4 * k), source.data.data (4 * k + 1),
      source.data.data (4 * k + 2), source.data.data (4 * k + 3)⟩ := by
  rw [uyvy, Buffer.read_of_lt (by omega), Buffer.read_of_lt (by omega),
    Buffer.read_of_lt (by omega), Buffer.read_of_lt h]
  rfl

theorem RawImage.uyvy_of_le (h : source.data.size ≤ 4 * k + 3) : source.uyvy k = none := by
  rw [uyvy, Buffer.read_of_le h]
  simp

theorem Image.setPixel_of_lt {img : Image} {i : Nat} {v : Raw8} (h : i < img.getNumPixels) :
    img.setPixel i v = some { img with data := Function.update img.data i v } := if_pos h

theorem thresholdBlock_of_lt (hsource : 4 * k + 3 < source.data.size)
    (htarget : 2 * k + 1 < target.getNumPixels) :
    thresholdBlock source lut target k = some { target with
      data := Function.update (Function.update target.data (2 * k) (lookedUp source lut (2 * k)))
        (2 * k + 1) (lookedUp source lut (2 * k + 1)) } := by
  have hblock : (2 * k) >>> 0x01 = k := by
    rw [Nat.shiftRight_eq_div_pow]
    omega
  have heven : lookedUp source lut (2 * k) = lut.get (source.data.data (4 * k + 1))
      (source.data.data (4 * k)) (source.data.data (4 * k + 2)) := by
    rw [lookedUp, Nat.mul_div_cancel_left k (by decide), Nat.mul_mod_right, if_pos rfl]
  have hodd : lookedUp source lut (2 * k + 1) = lut.get (source.data.data (4 * k + 3))
      (source.data.data (4 * k)) (source.data.data (4 * k + 2)) := by
    rw [lookedUp, show (2 * k + 1) / 2 = k by omega, if_neg (by omega)]
  rw [thresholdBlock, hblock, RawImage.uyvy_of_lt hsource, heven, hodd]
  simp only [Option.bind_eq_bind, Option.bind_some]
  rw [Image.setPixel_of_lt (by omega)]
  exact Image.setPixel_of_lt htarget

def SetTo (target : Image) (source : RawImage) (lut : LUT3D) (k : Nat) (img : Image) : Prop :=
  img.width = target.width ∧ img.height = target.height ∧
    ∀ p < 2 * k, img.data p = lookedUp source lut p

theorem SetTo.block {img : Image} (h : SetTo target source lut k img)
    (hsource : 4 * k + 3 < source.data.size) (htarget : 2 * k + 1 < target.getNumPixels) :
    ∃ img', thresholdBlock source lut img k = some img' ∧ SetTo target source lut (k + 1) img' := by
  obtain ⟨hwidth, hheight, hdata⟩ := h
  have hcount : img.getNumPixels = target.getNumPixels := by
    rw [Image.getNumPixels, Image.getNumPixels, hwidth, hheight]
  refine ⟨_, thresholdBlock_of_lt hsource (by rwa [hcount]), hwidth, hheight, fun p hp => ?_⟩
  by_cases hodd : p = 2 * k + 1
  · rw [hodd]
    exact Function.update_self ..
  by_cases heven : p = 2 * k
  · rw [heven]
    exact (Function.update_of_ne (by omega) ..).trans (Function.update_self ..)
  · exact (Function.update_of_ne hodd ..).trans
      ((Function.update_of_ne heven ..).trans (hdata p (by omega)))

/-- Thresholding is the lookup of every pixel exactly if the pixel count is even. -/
theorem thresholds_iff (target : Image) (source : RawImage) (lut : LUT3D)
    (hformat : source.format = .COLOR_YUV422_UYVY)
    (hcount : target.getNumPixels = source.getNumPixels) :
    Thresholds target source lut ↔ target.getNumPixels % 2 = 0 := by
  have hsize := RawImage.size_data_uyvy hformat
  have hcall : thresholdImageYUV422_UYVY target source lut =
      ((List.range ((target.getNumPixels + 1) / 2)).foldlM (thresholdBlock source lut)
        target).map (true, ·) := by
    rw [thresholdImageYUV422_UYVY, if_neg (by simp [hformat]), if_neg (by simp [hcount])]
  rw [Thresholds, hcall]
  constructor
  · rintro ⟨img, hloop, -⟩
    by_contra hodd
    obtain ⟨m, hm⟩ : ∃ m, (target.getNumPixels + 1) / 2 = m + 1 :=
      ⟨target.getNumPixels / 2, by omega⟩
    have hlast (t : Image) : thresholdBlock source lut t m = none := by
      have hblock : (2 * m) >>> 0x01 = m := by
        rw [Nat.shiftRight_eq_div_pow]
        omega
      rw [thresholdBlock, hblock, RawImage.uyvy_of_le (by omega)]
      rfl
    rw [hm, Loop.foldlM_succ] at hloop
    simp [hlast] at hloop
  · intro heven
    have hstart : SetTo target source lut 0 target :=
      ⟨rfl, rfl, fun p hp => absurd hp (Nat.not_lt_zero p)⟩
    have hblocks : ∀ k < (target.getNumPixels + 1) / 2, ∀ t, SetTo target source lut k t →
        ∃ t', thresholdBlock source lut t k = some t' ∧ SetTo target source lut (k + 1) t' :=
      fun k hk t ht => ht.block (by omega) (by omega)
    obtain ⟨img, hloop, hwidth, hheight, hdata⟩ := Loop.invariant hstart hblocks
    exact ⟨img, by rw [hloop]; rfl, hwidth, hheight, fun k hk => hdata k (by omega)⟩

def greyRow (width : Nat) : RawImage where
  format := .COLOR_YUV422_UYVY
  width
  height := 1
  data := ⟨width * 1 * 2, fun _ => 128⟩
  size_data := rfl

def clearRow (width : Nat) : Image := ⟨width, 1, fun _ => 0⟩

def fullTable : LUT3D := ⟨7, 7, 7, by decide, by decide, by decide, fun _ => 1⟩

theorem thresholds_iff_two_pixels : Thresholds (clearRow 2) (greyRow 2) fullTable :=
  (thresholds_iff (clearRow 2) (greyRow 2) fullTable rfl rfl).mpr rfl

theorem not_thresholds_one_pixel : ¬Thresholds (clearRow 1) (greyRow 1) fullTable := by
  rintro ⟨img, hcall, -⟩
  cases hcall

end LARCmaCS.CMVision
