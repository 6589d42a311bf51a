import Mathlib.Algebra.Group.Int.Defs
import Mathlib.Data.Rat.Defs

/-!
# C doubles

Finite doubles are rationals; the two zeros are one value, as `==` has it.
Only the conversions and comparisons the program makes are here.
-/

namespace LARCmaCS

/-- A C `char`, signed on the compilers in use. -/
abbrev CChar := BitVec 8

inductive Double
  | finite (q : Rat)
  | inf (negative : Bool)
  | nan
  deriving DecidableEq

namespace Double

instance : Zero Double := ⟨.finite 0⟩

def ofInt (n : Int) : Double := .finite n

def eqInt : Double → Int → Bool
  | .finite q, n => q == n
  | _, _ => false

/-- The conversion `char c = d`: truncation towards zero to an `int`, of which
the low 8 bits are kept. The language leaves it undefined outside the range
of `int`; the conversion instruction then gives the integer `-2 ^ 31`. -/
def toChar : Double → CChar
  | .finite q =>
    let n := q.num.tdiv q.den
    if -2 ^ 31 ≤ n ∧ n < 2 ^ 31 then BitVec.ofInt 8 n else 0
  | _ => 0

/-- Multiplication by a constant, taken exact. -/
def scale (k : Rat) : Double → Double
  | .finite q => .finite (q * k)
  | .inf negative => if k = 0 then .nan else .inf (negative != decide (k < 0))
  | .nan => .nan

def neg : Double → Double
  | .finite q => .finite (-q)
  | .inf negative => .inf !negative
  | .nan => .nan

def sub (c : Rat) : Double → Double
  | .finite q => .finite (q - c)
  | d => d

theorem zero_def : (0 : Double) = .finite 0 := rfl

@[simp] theorem eqInt_iff {d : Double} {n : Int} : d.eqInt n = true ↔ d = ofInt n := by
  cases d <;> simp [eqInt, ofInt]

@[simp] theorem ofInt_inj {m n : Int} : ofInt m = ofInt n ↔ m = n := by
  simp [ofInt]

@[simp] theorem ofInt_zero : ofInt 0 = 0 := rfl

@[simp] theorem neg_neg (d : Double) : d.neg.neg = d := by
  cases d <;> simp [neg]

theorem toChar_ofInt {n : Int} (h : -2 ^ 31 ≤ n ∧ n < 2 ^ 31) :
    (ofInt n).toChar = BitVec.ofInt 8 n := by
  have hn : (n : Rat).num.tdiv (n : Rat).den = n := by simp
  exact (if_pos (by rwa [hn])).trans (congrArg (BitVec.ofInt 8) hn)

end Double

end LARCmaCS
