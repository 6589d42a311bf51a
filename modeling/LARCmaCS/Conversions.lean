import LARCmaCS.Lib.Buffer
import Mathlib.Algebra.Order.Ring.Int
import Mathlib.Data.List.Basic
import Mathlib.Data.List.Range

/-!
# Backward-scanning converters

The converters of `conversions.cpp` that run down both images under the guard
`i > 0`, where `i` is the index of the source byte that is read next. The guard
still admits the last round if a round reads more than one byte, so all of them
but `y2rgb` convert every pixel (`converts_iff`).
-/

namespace LARCmaCS.Conversions

abbrev Byte := BitVec 8

/-- The range of `int`; arithmetic that leaves it has no result. -/
def int (n : Int) : Option Int := if -2 ^ 31 ≤ n ∧ n < 2 ^ 31 then some n else none

def shl (n : Int) (k : Nat) : Int := n <<< k

def shr (n : Int) (k : Nat) : Int := n >>> k

/-- `n >> count`, without a result where the count is not below the width of `int`. -/
def shiftRight (n count : Int) : Option Int :=
  if 0 ≤ count ∧ count < 32 then some (shr n count.toNat) else none

def bound (x low high : Int) : Int :=
  let x := if x < low then low else x
  if x > high then high else x

def yuv2rgb (y u v : Int) : Int × Int × Int :=
  (bound (y + shr (v * 1436) 10) 0 255,
   bound (y - shr (u * 352 + v * 731) 10) 0 255,
   bound (y + shr (u * 1814) 10) 0 255)

/-- The two indices, and the writes so far, oldest first. -/
structure Scan where
  i : Int
  j : Int
  writes : List (Nat × Byte)

namespace Scan

/-- `src[i--]` -/
def next (src : Buffer Byte) (s : Scan) : Option (Int × Scan) :=
  if 0 ≤ s.i then (src.read s.i.toNat).map fun v => (v.toNat, { s with i := s.i - 1 }) else none

/-- `dest[j--] = v` on a destination of `size` bytes. -/
def put (size : Nat) (s : Scan) (v : Int) : Option Scan :=
  if 0 ≤ s.j ∧ s.j < size then
    some { s with j := s.j - 1, writes := s.writes ++ [(s.j.toNat, BitVec.ofInt 8 v)] }
  else none

/-- `dest[j--] = b; dest[j--] = g; dest[j--] = r;` -/
def putPixel (size : Nat) (s : Scan) (rgb : Int × Int × Int) : Option Scan := do
  let s ← s.put size rgb.2.2
  let s ← s.put size rgb.2.1
  s.put size rgb.1

def skip (s : Scan) : Scan := { s with i := s.i - 1 }

/-- `while ( i > 0 )`, at most `n` rounds. -/
def loop (round : Scan → Option Scan) : (n : Nat) → Scan → Option Scan
  | 0, s => if s.i > 0 then none else some s
  | n + 1, s => if s.i > 0 then round s >>= loop round n else some s

end Scan

/-- The loop from the given indices on. Every round lowers `i`. -/
def scanDown (round : Scan → Option Scan) (i j : Int) : Option Scan :=
  Scan.loop round i.toNat ⟨i, j, []⟩

variable (src : Buffer Byte) (size : Nat) (width height : Int)

def rgb482rgbRound (s : Scan) : Option Scan := do
  let (b, s) ← s.skip.next src
  let s ← s.put size b
  let (g, s) ← s.skip.next src
  let s ← s.put size g
  let (r, s) ← s.skip.next src
  s.put size r

def rgb482rgb : Option Scan := do
  let NumPixels ← int (width * height)
  let double ← int (shl NumPixels 1)
  let triple ← int (NumPixels + double)
  let i ← int (shl triple 1)
  scanDown (rgb482rgbRound src size) (i - 1) (triple - 1)

def uyv2rgbRound (s : Scan) : Option Scan := do
  let (v, s) ← s.next src
  let (y, s) ← s.next src
  let (u, s) ← s.next src
  s.putPixel size (yuv2rgb y (u - 128) (v - 128))

def uyv2rgb : Option Scan := do
  let NumPixels ← int (width * height)
  let double ← int (shl NumPixels 1)
  let triple ← int (NumPixels + double)
  scanDown (uyv2rgbRound src size) (triple - 1) (triple - 1)

def uyyvyy2rgbRound (s : Scan) : Option Scan := do
  let (y3, s) ← s.next src
  let (y2, s) ← s.next src
  let (v, s) ← s.next src
  let (y1, s) ← s.next src
  let (y0, s) ← s.next src
  let (u, s) ← s.next src
  let s ← s.putPixel size (yuv2rgb y3 (u - 128) (v - 128))
  let s ← s.putPixel size (yuv2rgb y2 (u - 128) (v - 128))
  let s ← s.putPixel size (yuv2rgb y1 (u - 128) (v - 128))
  s.putPixel size (yuv2rgb y0 (u - 128) (v - 128))

def uyyvyy2rgb : Option Scan := do
  let NumPixels ← int (width * height)
  let i ← int (NumPixels + shr NumPixels 1)
  let double ← int (shl NumPixels 1)
  let triple ← int (NumPixels + double)
  scanDown (uyyvyy2rgbRound src size) (i - 1) (triple - 1)

def y2rgbRound (s : Scan) : Option Scan := do
  let (y, s) ← s.next src
  s.putPixel size (y, y, y)

def y2rgb : Option Scan := do
  let NumPixels ← int (width * height)
  let double ← int (shl NumPixels 1)
  let triple ← int (NumPixels + double)
  scanDown (y2rgbRound src size) (NumPixels - 1) (triple - 1)

def y162rgbRound (bits : Int) (s : Scan) : Option Scan := do
  let (y, s) ← s.next src
  let (high, s) ← s.next src
  let y ← shiftRight (y + shl high 8) (bits - 8)
  s.putPixel size (y, y, y)

def y162rgb (bits : Int) : Option Scan := do
  let NumPixels ← int (width * height)
  let double ← int (shl NumPixels 1)
  let triple ← int (NumPixels + double)
  scanDown (y162rgbRound src size bits) (double - 1) (triple - 1)

-- ---------------------------------------------------------------------------
-- What the converters are for
-- ---------------------------------------------------------------------------

inductive Converter
  | y2rgb
  | y162rgb (bits : Int)
  | rgb482rgb
  | uyv2rgb
  | uyyvyy2rgb

namespace Converter

def run (c : Converter) : Option Scan :=
  match c with
  | .y2rgb => Conversions.y2rgb src size width height
  | .y162rgb bits => Conversions.y162rgb src size width height bits
  | .rgb482rgb => Conversions.rgb482rgb src size width height
  | .uyv2rgb => Conversions.uyv2rgb src size width height
  | .uyyvyy2rgb => Conversions.uyyvyy2rgb src size width height

def round (c : Converter) : Scan → Option Scan :=
  match c with
  | .y2rgb => y2rgbRound src size
  | .y162rgb bits => y162rgbRound src size bits
  | .rgb482rgb => rgb482rgbRound src size
  | .uyv2rgb => uyv2rgbRound src size
  | .uyyvyy2rgb => uyyvyy2rgbRound src size

def stride : Converter → Nat
  | .y2rgb => 1
  | .y162rgb _ => 2
  | .rgb482rgb => 6
  | .uyv2rgb => 3
  | .uyyvyy2rgb => 6

def pixels : Converter → Nat
  | .uyyvyy2rgb => 4
  | _ => 1

def sourceBytes (c : Converter) (N : Nat) : Nat :=
  match c with
  | .y2rgb => N
  | .y162rgb _ => 2 * N
  | .rgb482rgb => 6 * N
  | .uyv2rgb => 3 * N
  | .uyyvyy2rgb => N + N / 2

def pixel (c : Converter) (src : Nat → Byte) (k : Nat) : Int × Int × Int :=
  let byte (i : Nat) : Int := (src i).toNat
  match c with
  | .y2rgb => (byte k, byte k, byte k)
  | .y162rgb bits =>
    let sample := 256 * byte (2 * k) + byte (2 * k + 1)
    let y := shr sample (bits - 8).toNat
    (y, y, y)
  | .rgb482rgb => (byte (6 * k), byte (6 * k + 2), byte (6 * k + 4))
  | .uyv2rgb => yuv2rgb (byte (3 * k + 1)) (byte (3 * k) - 128) (byte (3 * k + 2) - 128)
  | .uyyvyy2rgb =>
    let block := 6 * (k / 4)
    let luma := match k % 4 with
      | 0 => block + 1
      | 1 => block + 2
      | 2 => block + 4
      | _ => block + 5
    yuv2rgb (byte luma) (byte block - 128) (byte (block + 3) - 128)

def destByte (c : Converter) (src : Nat → Byte) (d : Nat) : Byte :=
  let (r, g, b) := c.pixel src (d / 3)
  BitVec.ofInt 8 (match d % 3 with
    | 0 => r
    | 1 => g
    | _ => b)

/-- The call stays within the images and writes every byte of the destination
once, with the value of its pixel. -/
def Converts (c : Converter) (src : Buffer Byte) (width height : Int) (N : Nat) : Prop :=
  ∃ s, c.run src (3 * N) width height = some s ∧
    (s.writes.map Prod.fst).Perm (List.range (3 * N)) ∧
    ∀ w ∈ s.writes, w.2 = c.destByte src.data w.1

end Converter

-- ---------------------------------------------------------------------------
-- The loop
-- ---------------------------------------------------------------------------

def cursor (i j : Nat) (writes : List (Nat × Byte)) : Scan := ⟨i - 1, j - 1, writes⟩

def down (f : Nat → Byte) (lo n : Nat) : List (Nat × Byte) :=
  ((List.range' lo n).map fun d => (d, f d)).reverse

variable {src} {size} {width height} {i j m n lo : Nat} {v : Int} {rgb : Int × Int × Int}
  {f : Nat → Byte} {writes : List (Nat × Byte)}

theorem down_add : down f lo (m + n) = down f (lo + m) n ++ down f lo m := by
  rw [down, ← List.range'_append_1, List.map_append, List.reverse_append, ← down, ← down]

theorem down_pixel {k : Nat} :
    down f (3 * k) (3 * (n + 1)) = down f (3 * (k + n)) 3 ++ down f (3 * k) (3 * n) := by
  rw [Nat.mul_succ, down_add, ← Nat.mul_add]

theorem i_cursor : (cursor i j writes).i = i - 1 := rfl

@[simp] theorem skip_cursor : (cursor (i + 1) j writes).skip = cursor i j writes := by
  simp [Scan.skip, cursor]

theorem next_cursor (h : i < src.size) :
    (cursor (i + 1) j writes).next src =
      some (((src.data i).toNat : Int), cursor i j writes) := by
  simp [Scan.next, cursor, Buffer.read_of_lt h]

theorem put_cursor (h : j < size) :
    (cursor i (j + 1) writes).put size v =
      some (cursor i j (writes ++ [(j, BitVec.ofInt 8 v)])) := by
  simp [Scan.put, cursor, h]

theorem putPixel_cursor (h : j + 2 < size) :
    (cursor i (j + 3) writes).putPixel size rgb =
      some (cursor i j (writes ++ [(j + 2, BitVec.ofInt 8 rgb.2.2), (j + 1, BitVec.ofInt 8 rgb.2.1),
        (j, BitVec.ofInt 8 rgb.1)])) := by
  rw [Scan.putPixel, put_cursor h, Option.bind_eq_bind, Option.bind_some, put_cursor (by omega),
    Option.bind_some, put_cursor (by omega)]
  simp

section Loop

variable {round : Scan → Option Scan} {a b q r k : Nat}

/-- Rounds that read `a` bytes and write `b` leave `r` of their blocks, the
first for which the guard does not hold. -/
theorem loop_of_rounds
    (hround : ∀ k < q, ∀ writes, round (cursor (a * (k + 1)) (b * (k + 1)) writes) =
      some (cursor (a * k) (b * k) (writes ++ down f (b * k) b)))
    (hstop : a * r ≤ 1) (hgo : 1 < a * (r + 1)) (hk : r + k ≤ q) (hn : k ≤ n)
    (writes : List (Nat × Byte)) :
    Scan.loop round n (cursor (a * (r + k)) (b * (r + k)) writes) =
      some (cursor (a * r) (b * r) (writes ++ down f (b * r) (b * k))) := by
  induction k generalizing n writes with
  | zero =>
    have hguard : ¬(cursor (a * r) (b * r) writes).i > 0 := by
      rw [i_cursor]
      omega
    cases n <;> simp [Scan.loop, hguard, down]
  | succ k ih =>
    obtain ⟨n, rfl⟩ : ∃ m, n = m + 1 := ⟨n - 1, by omega⟩
    have hle : a * (r + 1) ≤ a * (r + (k + 1)) := Nat.mul_le_mul_left a (by omega)
    have hguard : (cursor (a * (r + (k + 1))) (b * (r + (k + 1))) writes).i > 0 := by
      rw [i_cursor]
      omega
    have hrest : b * (r + k) = b * r + b * k := Nat.mul_add ..
    calc Scan.loop round (n + 1) (cursor (a * (r + (k + 1))) (b * (r + (k + 1))) writes)
      _ = round (cursor (a * (r + k + 1)) (b * (r + k + 1)) writes) >>= Scan.loop round n :=
        if_pos hguard
      _ = Scan.loop round n
          (cursor (a * (r + k)) (b * (r + k)) (writes ++ down f (b * (r + k)) b)) := by
        rw [hround (r + k) (by omega)]
        rfl
      _ = some (cursor (a * r) (b * r)
          (writes ++ down f (b * (r + k)) b ++ down f (b * r) (b * k))) :=
        ih (by omega) (by omega) _
      _ = some (cursor (a * r) (b * r) (writes ++ down f (b * r) (b * (k + 1)))) := by
        rw [hrest, List.append_assoc, ← down_add, Nat.mul_succ]

end Loop

-- ---------------------------------------------------------------------------
-- The rounds
-- ---------------------------------------------------------------------------

namespace Converter

variable {c : Converter} {k N q : Nat}

theorem destByte_red : c.destByte src.data (3 * k) = BitVec.ofInt 8 (c.pixel src.data k).1 := by
  rw [destByte, Nat.mul_div_cancel_left k (by decide), Nat.mul_mod_right]
  rfl

theorem destByte_green :
    c.destByte src.data (3 * k + 1) = BitVec.ofInt 8 (c.pixel src.data k).2.1 := by
  rw [destByte, show (3 * k + 1) / 3 = k by omega, show (3 * k + 1) % 3 = 1 by omega]
  rfl

theorem destByte_blue :
    c.destByte src.data (3 * k + 2) = BitVec.ofInt 8 (c.pixel src.data k).2.2 := by
  rw [destByte, show (3 * k + 2) / 3 = k by omega, show (3 * k + 2) % 3 = 2 by omega]
  rfl

theorem down_three : down (c.destByte src.data) (3 * k) 3 =
    [(3 * k + 2, BitVec.ofInt 8 (c.pixel src.data k).2.2),
      (3 * k + 1, BitVec.ofInt 8 (c.pixel src.data k).2.1),
      (3 * k, BitVec.ofInt 8 (c.pixel src.data k).1)] := by
  rw [← destByte_red, ← destByte_green, ← destByte_blue]
  rfl

theorem putPixel_pixel (hk : k < N) (hrgb : rgb = c.pixel src.data k) :
    (cursor i (3 * (k + 1)) writes).putPixel (3 * N) rgb =
      some (cursor i (3 * k) (writes ++ down (c.destByte src.data) (3 * k) 3)) := by
  rw [hrgb, down_three, Nat.mul_succ]
  exact putPixel_cursor (by omega)

/-- The bits of `y162rgb` leave a shift that is defined. -/
def ShiftDefined (c : Converter) : Prop :=
  ∀ bits, c = .y162rgb bits → 8 ≤ bits ∧ bits < 40

theorem y2rgbRound_cursor (hsize : src.size = N) (hk : k < N) :
    y2rgbRound src (3 * N) (cursor (k + 1) (3 * (k + 1)) writes) =
      some (cursor k (3 * k) (writes ++ down (y2rgb.destByte src.data) (3 * k) 3)) := by
  rw [y2rgbRound, next_cursor (by omega), Option.bind_eq_bind, Option.bind_some]
  exact putPixel_pixel hk rfl

theorem y162rgbRound_cursor {bits : Int} (hbits : 8 ≤ bits ∧ bits < 40) (hsize : src.size = 2 * N)
    (hk : k < N) :
    y162rgbRound src (3 * N) bits (cursor (2 * (k + 1)) (3 * (k + 1)) writes) =
      some (cursor (2 * k) (3 * k)
        (writes ++ down ((y162rgb bits).destByte src.data) (3 * k) 3)) := by
  have hshift (y : Int) : shiftRight y (bits - 8) = some (shr y (bits - 8).toNat) :=
    if_pos (by omega)
  have hsample : ((src.data (2 * k + 1)).toNat : Int) + shl (src.data (2 * k)).toNat 8 =
      256 * (src.data (2 * k)).toNat + (src.data (2 * k + 1)).toNat := by
    rw [shl, Int.shiftLeft_eq]
    omega
  rw [y162rgbRound, Nat.mul_succ]
  simp (disch := omega) only [next_cursor, hshift, hsample, Option.bind_eq_bind, Option.bind_some]
  exact putPixel_pixel hk rfl

theorem rgb482rgbRound_cursor (hsize : src.size = 6 * N) (hk : k < N) :
    rgb482rgbRound src (3 * N) (cursor (6 * (k + 1)) (3 * (k + 1)) writes) =
      some (cursor (6 * k) (3 * k) (writes ++ down (rgb482rgb.destByte src.data) (3 * k) 3)) := by
  rw [rgb482rgbRound, Nat.mul_succ, Nat.mul_succ, down_three]
  simp (disch := omega) only [skip_cursor, next_cursor, put_cursor, Option.bind_eq_bind,
    Option.bind_some, List.append_assoc]
  rfl

theorem uyv2rgbRound_cursor (hsize : src.size = 3 * N) (hk : k < N) :
    uyv2rgbRound src (3 * N) (cursor (3 * (k + 1)) (3 * (k + 1)) writes) =
      some (cursor (3 * k) (3 * k) (writes ++ down (uyv2rgb.destByte src.data) (3 * k) 3)) := by
  rw [uyv2rgbRound, Nat.mul_succ]
  simp (disch := omega) only [next_cursor, Option.bind_eq_bind, Option.bind_some]
  exact putPixel_pixel hk rfl

theorem pixel_uyyvyy2rgb (src : Buffer Byte) (k t luma : Nat)
    (ht : t = 0 ∧ luma = 1 ∨ t = 1 ∧ luma = 2 ∨ t = 2 ∧ luma = 4 ∨ t = 3 ∧ luma = 5) :
    uyyvyy2rgb.pixel src.data (4 * k + t) = yuv2rgb (src.data (6 * k + luma)).toNat
      ((src.data (6 * k)).toNat - 128) ((src.data (6 * k + 3)).toNat - 128) := by
  have hdiv : (4 * k + t) / 4 = k := by omega
  have hmod : (4 * k + t) % 4 = t := by omega
  rw [pixel, hdiv, hmod]
  rcases ht with ⟨rfl, rfl⟩ | ⟨rfl, rfl⟩ | ⟨rfl, rfl⟩ | ⟨rfl, rfl⟩ <;> rfl

theorem uyyvyy2rgbRound_cursor (hsize : src.size = 6 * q) (hk : k < q) :
    uyyvyy2rgbRound src (3 * (4 * q)) (cursor (6 * (k + 1)) (12 * (k + 1)) writes) =
      some (cursor (6 * k) (12 * k)
        (writes ++ down (uyyvyy2rgb.destByte src.data) (12 * k) 12)) := by
  have hlast : 12 * (k + 1) = 3 * (4 * k + 3 + 1) := by omega
  have hfirst : 3 * (4 * k) = 12 * k := by omega
  have hdown := calc down (uyyvyy2rgb.destByte src.data) (3 * (4 * k)) (3 * (3 + 1))
    _ = down (uyyvyy2rgb.destByte src.data) (3 * (4 * k + 3)) 3 ++
        (down (uyyvyy2rgb.destByte src.data) (3 * (4 * k + 2)) 3 ++
          (down (uyyvyy2rgb.destByte src.data) (3 * (4 * k + 1)) 3 ++
            down (uyyvyy2rgb.destByte src.data) (3 * (4 * k)) 3)) := by
      rw [down_pixel, down_pixel (n := 2), down_pixel (n := 1)]
  rw [uyyvyy2rgbRound, Nat.mul_succ, hlast, ← hfirst, Option.bind_eq_bind]
  iterate 6
    rw [next_cursor (by omega), Option.bind_some]
    dsimp only
  simp only [Option.bind_eq_bind]
  rw [putPixel_pixel (by omega) (pixel_uyyvyy2rgb src k 3 5 (by decide)).symm, Option.bind_some,
    putPixel_pixel (by omega) (pixel_uyyvyy2rgb src k 2 4 (by decide)).symm, Option.bind_some,
    putPixel_pixel (by omega) (pixel_uyyvyy2rgb src k 1 2 (by decide)).symm, Option.bind_some,
    putPixel_pixel (by omega) (pixel_uyyvyy2rgb src k 0 1 (by decide)).symm]
  simp only [Nat.add_zero, List.append_assoc, hdown]

-- ---------------------------------------------------------------------------
-- The calls
-- ---------------------------------------------------------------------------

/-- A round converts the pixels of its block. -/
theorem round_cursor (hshift : c.ShiftDefined) (hsize : src.size = c.stride * q) (hk : k < q)
    (writes : List (Nat × Byte)) :
    c.round src (3 * (c.pixels * q))
        (cursor (c.stride * (k + 1)) (3 * c.pixels * (k + 1)) writes) =
      some (cursor (c.stride * k) (3 * c.pixels * k)
        (writes ++ down (c.destByte src.data) (3 * c.pixels * k) (3 * c.pixels))) := by
  cases c with
  | y2rgb =>
    have hsize : src.size = q := by simpa [stride] using hsize
    simpa [round, stride, pixels] using y2rgbRound_cursor hsize hk
  | y162rgb bits =>
    simpa [round, stride, pixels] using y162rgbRound_cursor (hshift bits rfl) hsize hk
  | rgb482rgb => simpa [round, stride, pixels] using rgb482rgbRound_cursor hsize hk
  | uyv2rgb => simpa [round, stride, pixels] using uyv2rgbRound_cursor hsize hk
  | uyyvyy2rgb => exact uyyvyy2rgbRound_cursor hsize hk

theorem int_of_lt (h : n < 2 ^ 31) : int n = some (n : Int) := if_pos (by omega)

theorem int_eq_some {a b : Int} (h : int a = some b) : b = a ∧ a < 2 ^ 31 := by
  rw [int] at h
  split at h
  · rename_i hrange
    exact ⟨(Option.some.inj h).symm, hrange.2⟩
  · cases h

theorem shl_one (n : Nat) : shl n 1 = (2 * n : Nat) := by
  rw [shl, Int.shiftLeft_eq]
  omega

theorem add_double (n : Nat) : (n : Int) + (2 * n : Nat) = (3 * n : Nat) := by omega

theorem add_half (n : Nat) : (n : Int) + shr n 1 = (n + n / 2 : Nat) := by
  rw [shr, Int.shiftRight_eq_div_pow]
  omega

/-- The indices of both images are in the range of `int`. -/
def Fits (c : Converter) (N : Nat) : Prop := max (c.sourceBytes N) (3 * N) < 2 ^ 31

theorem run_of_fits (hN : width * height = N) (hfits : c.Fits N) :
    c.run src size width height =
      scanDown (c.round src size) ((c.sourceBytes N : Nat) - 1) ((3 * N : Nat) - 1) := by
  obtain ⟨hsource, hdest⟩ := Nat.max_lt.mp hfits
  have hone : int (width * height) = some (N : Int) := by rw [hN, int_of_lt (by omega)]
  have htwo : int (shl N 1) = some ((2 * N : Nat) : Int) := by
    rw [shl_one, int_of_lt (by omega)]
  have hthree : int ((N : Int) + (2 * N : Nat)) = some ((3 * N : Nat) : Int) := by
    rw [add_double, int_of_lt hdest]
  cases c with
  | y2rgb | y162rgb | uyv2rgb =>
    simp only [run, Conversions.y2rgb, Conversions.y162rgb, Conversions.uyv2rgb,
      Option.bind_eq_bind]
    rw [hone, Option.bind_some, htwo, Option.bind_some, hthree]
    rfl
  | rgb482rgb =>
    have hsix : int (shl (3 * N : Nat) 1) = some ((6 * N : Nat) : Int) := by
      have hlt : 6 * N < 2 ^ 31 := hsource
      rw [shl_one, ← Nat.mul_assoc, int_of_lt hlt]
    rw [run, Conversions.rgb482rgb, hone, Option.bind_eq_bind, Option.bind_some, htwo,
      Option.bind_some, hthree, Option.bind_some, hsix]
    rfl
  | uyyvyy2rgb =>
    have hhalf : int ((N : Int) + shr N 1) = some ((N + N / 2 : Nat) : Int) := by
      have hlt : N + N / 2 < 2 ^ 31 := hsource
      rw [add_half, int_of_lt hlt]
    rw [run, Conversions.uyyvyy2rgb, hone, Option.bind_eq_bind, Option.bind_some, hhalf,
      Option.bind_some, htwo, Option.bind_some, hthree]
    rfl

theorem fits_of_run {s : Scan} (hN : width * height = N)
    (hrun : c.run src size width height = some s) : c.Fits N := by
  have hfits {n d t : Int} (hone : int (width * height) = some n) (htwo : int (shl n 1) = some d)
      (hthree : int (n + d) = some t) : t = 3 * N ∧ 3 * N < 2 ^ 31 := by
    obtain ⟨rfl, -⟩ := int_eq_some hone
    obtain ⟨rfl, -⟩ := int_eq_some htwo
    obtain ⟨rfl, hlt⟩ := int_eq_some hthree
    rw [hN, shl_one, add_double] at hlt ⊢
    omega
  cases c with
  | y2rgb | y162rgb | uyv2rgb =>
    simp only [run, Conversions.y2rgb, Conversions.y162rgb, Conversions.uyv2rgb,
      Option.bind_eq_bind, Option.bind_eq_some_iff] at hrun
    obtain ⟨n, hone, d, htwo, t, hthree, -⟩ := hrun
    obtain ⟨-, hlt⟩ := hfits hone htwo hthree
    exact Nat.max_lt.mpr ⟨by rw [sourceBytes]; omega, hlt⟩
  | rgb482rgb =>
    simp only [run, Conversions.rgb482rgb, Option.bind_eq_bind, Option.bind_eq_some_iff] at hrun
    obtain ⟨n, hone, d, htwo, t, hthree, i, hsix, -⟩ := hrun
    obtain ⟨rfl, hlt⟩ := hfits hone htwo hthree
    obtain ⟨-, hlt'⟩ := int_eq_some hsix
    rw [shl, Int.shiftLeft_eq] at hlt'
    exact Nat.max_lt.mpr ⟨by rw [sourceBytes]; omega, hlt⟩
  | uyyvyy2rgb =>
    simp only [run, Conversions.uyyvyy2rgb, Option.bind_eq_bind, Option.bind_eq_some_iff] at hrun
    obtain ⟨n, hone, i, -, d, htwo, t, hthree, -⟩ := hrun
    obtain ⟨-, hlt⟩ := hfits hone htwo hthree
    exact Nat.max_lt.mpr ⟨by rw [sourceBytes]; omega, hlt⟩

theorem exists_blocks (hfour : c = .uyyvyy2rgb → 4 ∣ N) :
    ∃ q, N = c.pixels * q ∧ c.sourceBytes N = c.stride * q := by
  cases c with
  | y2rgb => exact ⟨N, (Nat.one_mul N).symm, (Nat.one_mul N).symm⟩
  | y162rgb | rgb482rgb | uyv2rgb => exact ⟨N, (Nat.one_mul N).symm, rfl⟩
  | uyyvyy2rgb =>
    obtain ⟨q, rfl⟩ := hfour rfl
    refine ⟨q, rfl, ?_⟩
    rw [sourceBytes, stride]
    omega

theorem run_of_blocks {r k : Nat} (hN : width * height = (c.pixels * (r + k) : Nat))
    (hbytes : c.sourceBytes (c.pixels * (r + k)) = c.stride * (r + k))
    (hsize : src.size = c.stride * (r + k)) (hfits : c.Fits (c.pixels * (r + k)))
    (hshift : c.ShiftDefined) (hpos : 0 < r + k) (hstop : c.stride * r ≤ 1)
    (hgo : 1 < c.stride * (r + 1)) :
    c.run src (3 * (c.pixels * (r + k))) width height =
      some (cursor (c.stride * r) (3 * c.pixels * r)
        (down (c.destByte src.data) (3 * c.pixels * r) (3 * c.pixels * k))) := by
  have hn : k ≤ ((c.stride * (r + k) : Nat) - 1 : Int).toNat := by
    cases c <;> simp only [stride] at hstop hgo ⊢ <;> omega
  have hdest : 3 * (c.pixels * (r + k)) = 3 * c.pixels * (r + k) := (Nat.mul_assoc ..).symm
  have hloop := loop_of_rounds (fun k hk writes => round_cursor hshift hsize hk writes) hstop hgo
    (Nat.le_refl (r + k)) hn []
  rw [List.nil_append, cursor, ← hdest] at hloop
  rw [run_of_fits hN hfits, hbytes, scanDown]
  exact hloop

theorem shiftDefined_of_run {s : Scan} (hN : width * height = N) (hpos : 1 ≤ N)
    (hrun : c.run src size width height = some s) : c.ShiftDefined := by
  rintro bits rfl
  rw [run_of_fits hN (fits_of_run hN hrun), scanDown] at hrun
  by_contra hbits
  have hround (s : Scan) : (y162rgb bits).round src size s = none := by
    have hshift (y : Int) : shiftRight y (bits - 8) = none := if_neg (by omega)
    simp [round, y162rgbRound, hshift]
  have hi : 0 < ((2 * N : Nat) : Int) - 1 := by omega
  obtain ⟨n, hn⟩ : ∃ n, (((2 * N : Nat) : Int) - 1).toNat = n + 1 := ⟨2 * N - 2, by omega⟩
  rw [sourceBytes, hn, Scan.loop, if_pos hi, hround] at hrun
  cases hrun

theorem length_down : (down f lo n).length = n := by
  rw [down, List.length_reverse, List.length_map, List.length_range']

theorem perm_down : ((down f 0 n).map Prod.fst).Perm (List.range n) := by
  have hfst : Prod.fst ∘ (fun d => (d, f d)) = id := rfl
  rw [down, List.map_reverse, List.map_map, List.range_eq_range', hfst, List.map_id]
  exact List.reverse_perm _

theorem snd_of_mem_down {w : Nat × Byte} (h : w ∈ down f lo n) : w.2 = f w.1 := by
  rw [down, List.mem_reverse, List.mem_map] at h
  obtain ⟨d, -, rfl⟩ := h
  rfl

/-- Every pixel is converted exactly if the guard admits the last round, the
shift is defined and the indices fit. -/
theorem converts_iff (c : Converter) (src : Buffer Byte) (width height : Int) (N : Nat)
    (hN : width * height = N) (hpos : 1 ≤ N) (hfour : c = .uyyvyy2rgb → 4 ∣ N)
    (hsize : src.size = c.sourceBytes N) :
    c.Converts src width height N ↔ c ≠ .y2rgb ∧ c.ShiftDefined ∧ c.Fits N := by
  obtain ⟨q, rfl, hbytes⟩ := exists_blocks hfour
  rw [hbytes] at hsize
  have hq : 0 < q := Nat.pos_of_mul_pos_left hpos
  constructor
  · rintro ⟨s, hrun, hperm, -⟩
    have hfits := fits_of_run hN hrun
    have hshift := shiftDefined_of_run hN hpos hrun
    refine ⟨?_, hshift, hfits⟩
    rintro rfl
    obtain ⟨k, rfl⟩ : ∃ k, q = 1 + k := ⟨q - 1, by omega⟩
    have hstuck := run_of_blocks hN hbytes hsize hfits hshift hq (by decide) (by decide)
    cases hstuck.symm.trans hrun
    have hlength := hperm.length_eq
    rw [cursor, List.length_map, length_down, List.length_range] at hlength
    have hlost : 3 * 1 * k = 3 * (1 * (1 + k)) := hlength
    omega
  · rintro ⟨hne, hshift, hfits⟩
    have hgo : 1 < c.stride * (0 + 1) := by
      cases c <;> simp [stride] at hne ⊢
    rw [← Nat.zero_add q] at hN hbytes hsize hfits hq ⊢
    have hrun := run_of_blocks hN hbytes hsize hfits hshift hq (Nat.zero_le 1) hgo
    refine ⟨_, hrun, ?_, fun w hw => snd_of_mem_down hw⟩
    rw [Nat.zero_add, ← Nat.mul_assoc]
    exact perm_down

theorem converts_iff_uyyvyy2rgb :
    uyyvyy2rgb.Converts ⟨12, fun k => BitVec.ofNat 8 (20 * k)⟩ 4 2 8 :=
  (converts_iff uyyvyy2rgb ⟨12, fun k => BitVec.ofNat 8 (20 * k)⟩ 4 2 8 rfl (by decide)
    (fun _ => by decide) rfl).mpr ⟨by simp, by simp [ShiftDefined], by simp [Fits, sourceBytes]⟩

def onePixel (size : Nat) : Buffer Byte := ⟨size, fun _ => 200⟩

theorem not_converts_y2rgb : ¬y2rgb.Converts (onePixel 1) 1 1 1 := by
  rintro ⟨s, hrun, hperm, -⟩
  cases hrun
  exact absurd hperm.length_eq (by decide)

end Converter

end LARCmaCS.Conversions
