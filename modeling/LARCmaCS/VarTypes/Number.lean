import LARCmaCS.Xml.Text
import Mathlib.Tactic.IntervalCases

/-!
# Numbers as text

How `VarInt` and `VarDouble` write their values for a settings file and read
them back. An `int` is 32 bits wide. What `printf` and `scanf` make of a
`double` is a parameter, with what the language promises of it.
-/

namespace LARCmaCS.VarTypes

open Xml (Byte chr str)

-- ---------------------------------------------------------------------------
-- Integers
-- ---------------------------------------------------------------------------

def INT_MIN : BitVec 32 := 0x80000000#32

def INT_MAX : BitVec 32 := 0x7fffffff#32

/-- `sprintf(result, "%d", val)` -/
def intToString (val : BitVec 32) : List Byte :=
  let digits := (Nat.toDigits 10 val.toInt.natAbs).map chr
  if val.toInt < 0 then chr '-' :: digits else digits

def isspace (b : Byte) : Bool := b = chr ' ' || 9#8 ≤ b && b ≤ 13#8

def isdigit (b : Byte) : Bool := 48#8 ≤ b && b ≤ 57#8

def readNat (s : List Byte) : Nat :=
  (s.takeWhile isdigit).foldl (fun n b => 10 * n + (b.toNat - 48)) 0

/-- `int num = 0; sscanf(s, "%d", &num);`. The language leaves a number outside
the range of `int` undefined; its low 32 bits are kept. -/
def scanInt (s : List Byte) : BitVec 32 :=
  match s.dropWhile isspace with
  | [] => 0
  | b :: s =>
    if b = chr '-' then BitVec.ofInt 32 (-readNat s)
    else if b = chr '+' then BitVec.ofInt 32 (readNat s)
    else BitVec.ofInt 32 (readNat (b :: s))

def plainByte (b : Byte) : Bool := 0x21#8 ≤ b && b < 0x7f#8

theorem digit_spec {c : Char} (h : c.isDigit) :
    isdigit (chr c) ∧ plainByte (chr c) ∧ ¬isspace (chr c) ∧ chr c ≠ chr '-' ∧ chr c ≠ chr '+' ∧
      (chr c).toNat = c.toNat := by
  obtain ⟨hlo, hhi⟩ := Char.isDigit_iff_toNat.mp h
  change 48 ≤ c.toNat at hlo
  change c.toNat ≤ 57 at hhi
  rw [chr]
  generalize c.toNat = n at hlo hhi
  interval_cases n <;> decide

theorem readNat_toDigits (n : Nat) : readNat ((Nat.toDigits 10 n).map chr) = n := by
  have hdigit : ∀ c ∈ Nat.toDigits 10 n, c.isDigit := fun c hc =>
    Nat.isDigit_of_mem_toDigits (by decide) (by decide) hc
  have htake : ((Nat.toDigits 10 n).map chr).takeWhile isdigit = (Nat.toDigits 10 n).map chr := by
    rw [List.takeWhile_eq_self_iff]
    intro b hb
    obtain ⟨c, hc, rfl⟩ := List.mem_map.mp hb
    exact (digit_spec (hdigit c hc)).1
  have hvalue := Nat.ofDigitChars_ten_toDigits (n := n)
  rw [Nat.ofDigitChars_eq_foldl] at hvalue
  rw [readNat, htake, List.foldl_map]
  refine Eq.trans (List.foldl_ext _ _ 0 fun m c hc => ?_) hvalue
  rw [(digit_spec (hdigit c hc)).2.2.2.2.2]
  rfl

theorem plainByte_intToString (val : BitVec 32) : ∀ b ∈ intToString val, plainByte b := by
  have hdigits : ∀ b ∈ (Nat.toDigits 10 val.toInt.natAbs).map chr, plainByte b := by
    intro b hb
    obtain ⟨c, hc, rfl⟩ := List.mem_map.mp hb
    exact (digit_spec (Nat.isDigit_of_mem_toDigits (by decide) (by decide) hc)).2.1
  have hminus : plainByte (chr '-') := by decide
  unfold intToString
  dsimp only
  split
  · simpa [hminus] using hdigits
  · exact hdigits

theorem scanInt_intToString (val : BitVec 32) : scanInt (intToString val) = val := by
  have hread := readNat_toDigits val.toInt.natAbs
  have hminus : ¬isspace (chr '-') := by decide
  unfold intToString
  dsimp only
  split
  · next hneg =>
    rw [scanInt, List.dropWhile_cons_of_neg hminus]
    simp only [if_true, hread]
    rw [show -((val.toInt.natAbs : Nat) : Int) = val.toInt by omega, BitVec.ofInt_toInt]
  · next hpos =>
    obtain ⟨c, s, hs⟩ := List.exists_cons_of_ne_nil (Nat.toDigits_ne_nil (b := 10) (n := val.toInt.natAbs))
    have hc : c.isDigit := Nat.isDigit_of_mem_toDigits (by decide) (by decide) (hs ▸ List.mem_cons_self)
    obtain ⟨-, -, hspace, hminus, hplus, -⟩ := digit_spec hc
    rw [hs, List.map_cons] at hread ⊢
    rw [scanInt, List.dropWhile_cons_of_neg hspace]
    simp only [hminus, hplus, if_false, hread]
    rw [show ((val.toInt.natAbs : Nat) : Int) = val.toInt by omega, BitVec.ofInt_toInt]

theorem length_intToString (val : BitVec 32) : (intToString val).length < 255 := by
  have hlt : val.toInt.natAbs < 10 ^ 10 := by
    have hle := BitVec.le_two_mul_toInt (x := val)
    have hlt := BitVec.two_mul_toInt_lt (x := val)
    omega
  have hlen := (Nat.length_toDigits_le_iff (by decide) (by decide)).mpr hlt
  unfold intToString
  dsimp only
  split
  · simp
    omega
  · simp
    omega

-- ---------------------------------------------------------------------------
-- Numbers of either kind
-- ---------------------------------------------------------------------------

/-- What `VarInt` and `VarDouble` need of their type. -/
class Number (α : Type) where
  toText : α → List Byte
  scan : List Byte → α
  lt : α → α → Bool
  /-- No bounds. -/
  lowest : α
  highest : α
  zero : α
  toText_ne_nil : ∀ x, toText x ≠ []
  plainByte_toText : ∀ x, ∀ b ∈ toText x, plainByte b

theorem intToString_ne_nil (val : BitVec 32) : intToString val ≠ [] := by
  have hdigits : (Nat.toDigits 10 val.toInt.natAbs).map chr ≠ [] := by
    simp [Nat.toDigits_ne_nil]
  unfold intToString
  dsimp only
  split
  · simp
  · exact hdigits

instance : Number (BitVec 32) where
  toText := intToString
  scan := scanInt
  lt := BitVec.slt
  lowest := INT_MIN
  highest := INT_MAX
  zero := 0
  toText_ne_nil := intToString_ne_nil
  plainByte_toText := plainByte_intToString

variable {α : Type} [Number α]

/-- `sprintf` into 255 characters. -/
def sprintf (val : α) : Option (List Byte) :=
  if (Number.toText val).length < 255 then some (Number.toText val) else none

/-- The text fits, and nothing of the number is lost in it. -/
structure Printable (val : α) : Prop where
  fits : (Number.toText val).length < 255
  scan : Number.scan (Number.toText val) = val

theorem printable_int (val : BitVec 32) : Printable val :=
  ⟨length_intToString val, scanInt_intToString val⟩

theorem Printable.sprintf_eq {val : α} (h : Printable val) :
    sprintf val = some (Number.toText val) := if_pos h.fits

end LARCmaCS.VarTypes
