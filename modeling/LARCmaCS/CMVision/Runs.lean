import Mathlib.Logic.Function.Basic

/-!
# Runs of a thresholded image

`encodeRuns` and `connectComponents` of `cmvision_region.cpp`, over the run
buffer of `cmvision_region.h`. A read or a write outside the buffer has no
result. Loops that the source does not bound carry a bound here; running out
of it has no result either.
-/

namespace LARCmaCS.CMVision

abbrev Raw8 := BitVec 8

structure Image where
  width : Nat
  height : Nat
  data : Nat → Raw8

def Image.pixel (tmap : Image) (x y : Nat) : Raw8 := tmap.data (y * tmap.width + x)

structure Run where
  x : Nat
  y : Nat
  width : Nat
  color : Raw8
  parent : Nat
  next : Nat
  deriving DecidableEq

def Run.stop (r : Run) : Nat := r.x + r.width

/-- `runs` is the memory the buffer lies in; its own entries are those below
`maxRuns`. -/
structure RunList where
  runs : Nat → Run
  maxRuns : Nat
  usedRuns : Nat

namespace RunList

def read (l : RunList) (i : Nat) : Option Run := if i < l.maxRuns then some (l.runs i) else none

def write (l : RunList) (i : Nat) (r : Run) : Option RunList :=
  if i < l.maxRuns then some { l with runs := Function.update l.runs i r } else none

def setParent (l : RunList) (i p : Nat) : Option RunList := do
  let r ← l.read i
  l.write i { r with parent := p }

end RunList

-- ---------------------------------------------------------------------------
-- encodeRuns
-- ---------------------------------------------------------------------------

/-- The column at which the colour `m` ends, scanning `n` columns from `x`. -/
def runEnd (tmap : Image) (y : Nat) (m : Raw8) : (n x : Nat) → Nat
  | 0, x => x
  | n + 1, x => if tmap.pixel x y = m then runEnd tmap y m n (x + 1) else x

/-- The loop over a row from column `x`, at most `n` rounds, with `j` runs
written. The flag says that the buffer is full and `encodeRuns` returns. -/
def encodeRow (tmap : Image) (y : Nat) : (n x : Nat) → RunList → Nat → Option (RunList × Nat × Bool)
  | 0, x, l, j => if x < tmap.width then none else some (l, j, false)
  | n + 1, x, l, j =>
    if x < tmap.width then
      let m := tmap.pixel x y
      let stop := runEnd tmap y m (tmap.width - x) x
      if m ≠ 0 ∨ stop = tmap.width then do
        let l ← l.write j ⟨x, y, stop - x, m, j, 0⟩
        if j + 1 ≥ l.maxRuns then some (l, j + 1, true)
        else encodeRow tmap y n stop l (j + 1)
      else encodeRow tmap y n stop l j
    else some (l, j, false)

def encodeRows (tmap : Image) : (n y : Nat) → RunList → Nat → Option (RunList × Nat)
  | 0, _, l, j => some (l, j)
  | n + 1, y, l, j => do
    let (l, j, full) ← encodeRow tmap y tmap.width 0 l j
    if full then some (l, j) else encodeRows tmap n (y + 1) l j

def encodeRuns (tmap : Image) (l : RunList) : Option RunList := do
  let (l, j) ← encodeRows tmap tmap.height 0 l 0
  some { l with usedRuns := j }

-- ---------------------------------------------------------------------------
-- connectComponents
-- ---------------------------------------------------------------------------

/-- `while(map[l1].y == 0) l1++`, at most `n` rounds. -/
def skipFirstLine (map : RunList) : (n l1 : Nat) → Option Nat
  | 0, _ => none
  | n + 1, l1 => do
    let r ← map.read l1
    if r.y = 0 then skipFirstLine map n (l1 + 1) else some l1

/-- `while(i != map[i].parent) i = map[i].parent`, at most `n` rounds. -/
def findRoot (map : RunList) : (n i : Nat) → Option Nat
  | 0, _ => none
  | n + 1, i => do
    let r ← map.read i
    if i ≠ r.parent then findRoot map n r.parent else some i

/-- The variables of the lock-step loop: the array, the two cursors with their
copies of the runs, and the last run that was given a parent. -/
structure Sweep where
  map : RunList
  l1 : Nat
  l2 : Nat
  r1 : Run
  r2 : Run
  s : Nat

def Run.Overlaps (r1 r2 : Run) : Prop :=
  (r2.x ≤ r1.x ∧ r1.x < r2.x + r2.width) ∨ (r1.x ≤ r2.x ∧ r2.x < r1.x + r1.width)

instance (r1 r2 : Run) : Decidable (r1.Overlaps r2) := inferInstanceAs (Decidable (_ ∨ _))

def Run.Connects (r1 r2 : Run) : Prop := r1.color = r2.color ∧ r1.color ≠ 0 ∧ r1.Overlaps r2

instance (r1 r2 : Run) : Decidable (r1.Connects r2) := inferInstanceAs (Decidable (_ ∧ _))

namespace Sweep

def link (t : Sweep) (q p : Nat) : Option Sweep := do
  let map ← t.map.setParent q p
  let map ← map.setParent t.l2 p
  let map ← map.setParent t.l1 p
  some { t with map, r1 := { t.r1 with parent := p }, r2 := { t.r2 with parent := p } }

def connect (t : Sweep) : Option Sweep :=
  if t.s ≠ t.l1 then do
    let map ← t.map.setParent t.l1 t.r2.parent
    some { t with map, r1 := { t.r1 with parent := t.r2.parent }, s := t.l1 }
  else if t.r1.parent ≠ t.r2.parent then do
    let i ← findRoot t.map t.map.maxRuns t.r1.parent
    let j ← findRoot t.map t.map.maxRuns t.r2.parent
    if i < j then t.link j i else t.link i j
  else some t

def visit (t : Sweep) : Option Sweep := if t.r1.Connects t.r2 then t.connect else some t

def next1 (t : Sweep) : Option Sweep := do
  let r1 ← t.map.read (t.l1 + 1)
  some { t with l1 := t.l1 + 1, r1 }

def next2 (t : Sweep) : Option Sweep := do
  let r2 ← t.map.read (t.l2 + 1)
  some { t with l2 := t.l2 + 1, r2 }

/-- Move to the next point where values may change. -/
def advance (t : Sweep) : Option Sweep :=
  let i : Int := (t.r2.stop : Int) - t.r1.stop
  do
    let t ← (if i ≥ 0 then t.next1 else some t)
    if i ≤ 0 then t.next2 else some t

def loop (num : Nat) : (n : Nat) → Sweep → Option RunList
  | 0, t => if t.l1 < num then none else some t.map
  | n + 1, t =>
    if t.l1 < num then do
      let t ← t.visit
      let t ← t.advance
      loop num n t
    else some t.map

end Sweep

def compressParent (map : RunList) (i : Nat) : Option RunList := do
  let r ← map.read i
  let q ← map.read r.parent
  map.setParent i q.parent

/-- Every round of the lock-step loop moves a cursor, so twice the buffer's
length bounds it. -/
def connectComponents (map : RunList) : Option RunList := do
  let l1 ← skipFirstLine map map.maxRuns 1
  let r1 ← map.read l1
  let r2 ← map.read 0
  let num := map.usedRuns
  let map ← Sweep.loop num (2 * map.maxRuns) ⟨map, l1, 0, r1, r2, l1⟩
  (List.range num).foldlM compressParent map

end LARCmaCS.CMVision
