import Mathlib.Tactic.Common

/-!
# Little-endian byte strings

Words of any width as byte strings, least significant byte first. Both
directions are described bit by bit: bit `i` of a word is bit `i % 8` of
byte `i / 8` of its string.
-/

namespace LittleEndian

abbrev Byte := BitVec 8

def encode : Nat → BitVec w → List Byte
  | 0, _ => []
  | n + 1, x => x.setWidth 8 :: encode n (x >>> 8)

/-- The word a byte string spells, cut off at width `w`. -/
def decode (w : Nat) : List Byte → BitVec w
  | [] => 0
  | b :: bs => b.setWidth w ||| (decode w bs <<< 8)

@[simp] theorem length_encode (n : Nat) (x : BitVec w) : (encode n x).length = n := by
  induction n generalizing x with
  | zero => rfl
  | succ n ih => simp [encode, ih]

theorem getD_encode {n : Nat} (x : BitVec w) {k : Nat} (hk : k < n) :
    (encode n x).getD k 0 = (x >>> (8 * k)).setWidth 8 := by
  induction n generalizing x k with
  | zero => omega
  | succ n ih =>
    cases k with
    | zero => simp [encode]
    | succ k =>
      have hshift : x >>> 8 >>> (8 * k) = x >>> (8 * (k + 1)) := by
        rw [← BitVec.shiftRight_add, show 8 + 8 * k = 8 * (k + 1) by omega]
      rw [encode, List.getD_cons_succ, ih (x >>> 8) (by omega), hshift]

theorem getLsbD_decode (bs : List Byte) (i : Nat) :
    (decode w bs).getLsbD i = (decide (i < w) && (bs.getD (i / 8) 0).getLsbD (i % 8)) := by
  induction bs generalizing i with
  | nil => simp [decode]
  | cons b bs ih =>
    simp only [decode, BitVec.getLsbD_or, BitVec.getLsbD_setWidth, BitVec.getLsbD_shiftLeft, ih]
    by_cases hi : i < 8
    · simp [hi, Nat.div_eq_of_lt hi, Nat.mod_eq_of_lt hi]
    · obtain ⟨j, rfl⟩ : ∃ j, i = j + 8 := ⟨i - 8, by omega⟩
      have hb : b.getLsbD (j + 8) = false := BitVec.getLsbD_of_ge b _ (by omega)
      have hdiv : (j + 8) / 8 = j / 8 + 1 := by omega
      have hmod : (j + 8) % 8 = j % 8 := by omega
      rw [hb, hdiv, hmod, List.getD_cons_succ]
      by_cases hw : j + 8 < w
      · simp [hw, show j < w by omega]
      · simp [hw]

theorem decode_encode {n : Nat} (x : BitVec w) (hw : w ≤ 8 * n) : decode w (encode n x) = x := by
  apply BitVec.eq_of_getLsbD_eq
  intro i hi
  have hk : i / 8 < n := by omega
  have hbit : 8 * (i / 8) + i % 8 = i := Nat.div_add_mod i 8
  rw [getLsbD_decode, getD_encode x hk, BitVec.getLsbD_setWidth, BitVec.getLsbD_ushiftRight, hbit]
  simp [hi, Nat.mod_lt i (show 0 < 8 by omega)]

end LittleEndian
