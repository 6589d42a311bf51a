import LARCmaCS.Lib.SeedFill

/-!
# The lookup table and its flood fill

`LUT3D` and `maskFillYZ` of `lut3d.h`. The loops over one row are bounded by
the row; `fillRuns` and the segment loop carry a bound, and have no result if
they run out of it.
-/

namespace LARCmaCS

open SeedFill (Span)

abbrev LutMask := BitVec 8

inductive LUTChannelMode where
  | numeric
  | bitwise
  deriving DecidableEq

/-- `LUT` is the memory from the table's first byte; its own bytes are those
below `LUT_SIZE`. -/
structure LUT3D where
  X_BITS : Nat
  Y_BITS : Nat
  Z_BITS : Nat
  x_bits_le : X_BITS ≤ 8
  y_bits_le : Y_BITS ≤ 8
  z_bits_le : Z_BITS ≤ 8
  LUT : Nat → LutMask

namespace LUT3D

def Z_AND_Y_BITS (t : LUT3D) : Nat := t.Y_BITS + t.Z_BITS

def TOTAL_BITS (t : LUT3D) : Nat := t.X_BITS + t.Y_BITS + t.Z_BITS

def LUT_SIZE (t : LUT3D) : Nat := 0x01 <<< (t.TOTAL_BITS + 1)

def getMaxX (t : LUT3D) : Nat := 0x01 <<< t.X_BITS - 0x01

def getMaxY (t : LUT3D) : Nat := 0x01 <<< t.Y_BITS - 0x01

def getMaxZ (t : LUT3D) : Nat := 0x01 <<< t.Z_BITS - 0x01

def uchar (n : Int) : Nat := (n % 256).toNat

def preshrunk (t : LUT3D) (x y z : Int) : Nat :=
  uchar x <<< t.Z_AND_Y_BITS ||| uchar y <<< t.Z_BITS ||| uchar z

def get_preshrunk (t : LUT3D) (x y z : Int) : LutMask := t.LUT (t.preshrunk x y z)

def set_preshrunk (t : LUT3D) (x y z : Int) (mask : LutMask) : LUT3D :=
  { t with LUT := Function.update t.LUT (t.preshrunk x y z) mask }

end LUT3D

-- ---------------------------------------------------------------------------
-- maskFillYZ
-- ---------------------------------------------------------------------------

/-- What a call of `maskFillYZ` fixes before its loops. -/
structure MaskFill where
  slice_x : Nat
  old_color : LutMask
  new_color : LutMask
  mode : LUTChannelMode
  remove : Bool
  check_exact : Bool
  write_exclusive : Bool

namespace MaskFill

def fills (f : MaskFill) (v : LutMask) : Bool :=
  if f.check_exact then v == f.old_color
  else (v &&& f.new_color == 0) == (if f.remove then false else true)

def target (f : MaskFill) (v : LutMask) : LutMask :=
  if f.remove then
    match f.mode with
    | .bitwise => v &&& ~~~f.new_color
    | .numeric => 0
  else if f.write_exclusive then f.new_color
  else v ||| f.new_color

def test (f : MaskFill) (t : LUT3D) (x : Nat) (y : Int) : Bool :=
  f.fills (t.get_preshrunk f.slice_x x y)

def write (f : MaskFill) (t : LUT3D) (x : Nat) (y : Int) : LUT3D :=
  t.set_preshrunk f.slice_x x y (f.target (t.get_preshrunk f.slice_x x y))

/-- The origin has the new color already, or nothing of it to remove. -/
def done (f : MaskFill) : Bool :=
  if f.remove = false then
    if f.check_exact then f.old_color == f.new_color else f.old_color &&& f.new_color != 0
  else
    match f.mode with
    | .bitwise => f.old_color &&& f.new_color == 0
    | .numeric => f.old_color == 0

end MaskFill

def LUTFILL_MAXDEPTH : Nat := 10000

/-- `LUTFILL_PUSH` on a stack of at most `depth` segments, its top first. -/
def LUTFILL_PUSH (depth maxZ : Nat) (stack : List Span) (s : Span) : List Span :=
  if stack.length < depth ∧ s.y + s.dy ≥ 0 ∧ s.y + s.dy ≤ maxZ then s :: stack else stack

namespace MaskFill

/-- `for( x = x1; x >= 0 && ...; --x )`, at `n = x + 1`. Gives `x + 1` at its
end. -/
def fillLeft (f : MaskFill) (y : Int) : (n : Nat) → LUT3D → Nat × LUT3D
  | 0, t => (0, t)
  | x + 1, t => if f.test t x y then fillLeft f y x (f.write t x y) else (x + 1, t)

/-- `for( ; x <= getMaxY() && ...; ++x )` with `n` columns left. -/
def fillRight (f : MaskFill) (y : Int) : (n x : Nat) → LUT3D → Nat × LUT3D
  | 0, x, t => (x, t)
  | n + 1, x, t => if f.test t x y then fillRight f y n (x + 1) (f.write t x y) else (x, t)

/-- The loop behind `SKIP`, with `n` columns left. -/
def skip (f : MaskFill) (y : Int) (t : LUT3D) : (n x : Nat) → Nat
  | 0, x => x
  | n + 1, x => if f.test t x y = false then skip f y t n (x + 1) else x

/-- The do-while loop over the runs of row `y`, at most `n` rounds. -/
def fillRuns (f : MaskFill) (depth x2 : Nat) (y dy : Int) :
    (n x left : Nat) → LUT3D → List Span → Option (LUT3D × List Span)
  | 0, _, _, _, _ => none
  | n + 1, x, left, t, stack =>
    let (x, t) := f.fillRight y (t.getMaxY + 1 - x) x t
    let stack := LUTFILL_PUSH depth t.getMaxZ stack ⟨left, x - 1, y, dy⟩
    let stack :=
      if x > x2 + 1 then LUTFILL_PUSH depth t.getMaxZ stack ⟨x2 + 1, x - 1, y, -dy⟩ else stack
    let x := f.skip y t (x2 - x) (x + 1)
    if x ≤ x2 then fillRuns f depth x2 y dy n x x t stack else some (t, stack)

/-- A round of the segment loop, with `s` popped. -/
def fillSegment (f : MaskFill) (depth : Nat) (s : Span) (t : LUT3D) (stack : List Span) :
    Option (LUT3D × List Span) :=
  let y := s.y + s.dy
  let (left, t) := f.fillLeft y (s.xl + 1) t
  if left > s.xl then
    let x := f.skip y t (s.xr - s.xl) (s.xl + 1)
    if x ≤ s.xr then f.fillRuns depth s.xr y s.dy (s.xr + 2) x x t stack else some (t, stack)
  else
    let stack :=
      if left < s.xl then LUTFILL_PUSH depth t.getMaxZ stack ⟨left, s.xl - 1, y, -s.dy⟩ else stack
    f.fillRuns depth s.xr y s.dy (s.xr + 2) (s.xl + 1) left t stack

def fillLoop (f : MaskFill) (depth : Nat) : (n : Nat) → LUT3D → List Span → Option LUT3D
  | _, t, [] => some t
  | 0, _, _ :: _ => none
  | n + 1, t, s :: stack => do
    let (t, stack) ← f.fillSegment depth s t stack
    fillLoop f depth n t stack

end MaskFill

namespace LUT3D

def maskFill (t : LUT3D) (slice_x origin_y origin_z : Nat) (new_color : LutMask)
    (mode : LUTChannelMode) (remove check_exact write_exclusive : Bool) : MaskFill where
  slice_x
  old_color := t.get_preshrunk slice_x origin_y origin_z
  new_color
  mode
  remove
  check_exact := if mode = .numeric then true else check_exact
  write_exclusive := if mode = .numeric then true else write_exclusive

def seeds (t : LUT3D) (depth origin_y origin_z : Nat) : List Span :=
  let stack := LUTFILL_PUSH depth t.getMaxZ [] ⟨origin_y, origin_y, origin_z, 1⟩
  LUTFILL_PUSH depth t.getMaxZ stack ⟨origin_y, origin_y, origin_z + 1, -1⟩

/-- With at most `n` rounds of the segment loop. -/
def maskFillYZ (t : LUT3D) (n slice_x origin_y origin_z : Nat) (new_color : LutMask)
    (mode : LUTChannelMode) (remove check_exact write_exclusive : Bool) : Option LUT3D :=
  let f := t.maskFill slice_x origin_y origin_z new_color mode remove check_exact write_exclusive
  if f.done then some t
  else if origin_y > t.getMaxY ∨ origin_z > t.getMaxZ then some t
  else f.fillLoop LUTFILL_MAXDEPTH n t (t.seeds LUTFILL_MAXDEPTH origin_y origin_z)

end LUT3D

end LARCmaCS
