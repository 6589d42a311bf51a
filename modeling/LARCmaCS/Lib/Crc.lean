import Mathlib.Logic.Function.Iterate
import Mathlib.Tactic.Common

/-!
# Cyclic redundancy checks

A reflected CRC register of any width: bits enter at the low end, and a shift
that loses a bit adds the polynomial. The register is linear in its contents
and in the bits fed to it, and a shift is injective when the polynomial has
its top bit set. So feeding a burst no longer than the register to an empty
register leaves it non-empty, whatever number of zeros follows.
-/

namespace Crc

variable {w : Nat} {P r s : BitVec w}

def shift (P r : BitVec w) : BitVec w := if r.getLsbD 0 then (r >>> 1) ^^^ P else r >>> 1

theorem shift_xor : shift P (r ^^^ s) = shift P r ^^^ shift P s := by
  cases hr : r.getLsbD 0 <;> cases hs : s.getLsbD 0 <;>
    simp only [shift, BitVec.getLsbD_xor, hr, hs, BitVec.ushiftRight_xor_distrib] <;>
    ext i hi <;> simp <;> grind

@[simp] theorem shift_zero : shift P 0#w = 0#w := by
  simp [shift]

theorem shift_of_even (h : r.getLsbD 0 = false) : shift P r = r >>> 1 := by
  simp [shift, h]

theorem shift_ne_zero (hP : P.msb = true) (hr : r ≠ 0) : shift P r ≠ 0 := by
  intro h
  cases hbit : r.getLsbD 0 with
  | true =>
    -- The lost bit adds the polynomial, whose top bit nothing cancels.
    have htop := congrArg BitVec.msb h
    simp [shift, hbit, hP, BitVec.msb_ushiftRight] at htop
  | false =>
    rw [shift_of_even hbit] at h
    refine hr (BitVec.eq_of_getLsbD_eq fun i _ => ?_)
    cases i with
    | zero => simpa using hbit
    | succ i =>
      have hi := congrArg (fun x : BitVec w => x.getLsbD i) h
      simpa [Nat.add_comm] using hi

/-- Shifts that lose no bit only move the contents. -/
theorem iterate_shift_of_low {n : Nat} (h : ∀ i < n, r.getLsbD i = false) :
    (shift P)^[n] r = r >>> n := by
  induction n generalizing r with
  | zero => simp
  | succ n ih =>
    rw [Function.iterate_succ_apply, shift_of_even (h 0 (Nat.succ_pos n)), ih]
    · rw [← BitVec.shiftRight_add, Nat.add_comm]
    · intro i hi
      simpa [Nat.add_comm] using h (i + 1) (Nat.succ_lt_succ hi)

theorem iterate_shift_xor (n : Nat) :
    (shift P)^[n] (r ^^^ s) = (shift P)^[n] r ^^^ (shift P)^[n] s := by
  induction n generalizing r s with
  | zero => rfl
  | succ n ih => simp only [Function.iterate_succ_apply, shift_xor, ih]

-- ---------------------------------------------------------------------------
-- Feeding bits
-- ---------------------------------------------------------------------------

def bit (w : Nat) (b : Bool) : BitVec w := (BitVec.ofBool b).setWidth w

def feed (P r : BitVec w) (bits : List Bool) : BitVec w :=
  bits.foldl (fun r b => shift P (r ^^^ bit w b)) r

@[simp] theorem feed_nil : feed P r [] = r := rfl

@[simp] theorem feed_cons {b : Bool} {bits : List Bool} :
    feed P r (b :: bits) = feed P (shift P (r ^^^ bit w b)) bits := rfl

theorem feed_append {bits more : List Bool} :
    feed P r (bits ++ more) = feed P (feed P r bits) more := List.foldl_append

theorem feed_xor {bits other : List Bool} (h : bits.length = other.length) :
    feed P (r ^^^ s) (List.zipWith (· ^^ ·) bits other) = feed P r bits ^^^ feed P s other := by
  induction bits generalizing r s other with
  | nil =>
    obtain rfl : other = [] := List.eq_nil_of_length_eq_zero h.symm
    rfl
  | cons b bits ih =>
    cases other with
    | nil => cases h
    | cons c other =>
      have hbit : bit w (b ^^ c) = bit w b ^^^ bit w c := by
        cases b <;> cases c <;> simp [bit]
      have hsplit : r ^^^ s ^^^ (bit w b ^^^ bit w c) = (r ^^^ bit w b) ^^^ (s ^^^ bit w c) := by
        ac_rfl
      rw [List.zipWith_cons_cons, feed_cons, feed_cons, feed_cons, hbit, hsplit, shift_xor]
      exact ih (Nat.succ.inj h)

/-- The word that a list of bits spells, the first bit lowest. -/
def ofBits (w : Nat) : List Bool → BitVec w
  | [] => 0
  | b :: bits => bit w b ||| (ofBits w bits <<< 1)

theorem getLsbD_bit (b : Bool) (i : Nat) :
    (bit w b).getLsbD i = (decide (i < w) && decide (i = 0) && b) := by
  simp [bit, BitVec.getLsbD_setWidth, BitVec.getLsbD_ofBool]
  grind

theorem getLsbD_ofBits (bits : List Bool) (i : Nat) :
    (ofBits w bits).getLsbD i = (decide (i < w) && bits.getD i false) := by
  induction bits generalizing i with
  | nil => simp [ofBits]
  | cons b bits ih =>
    cases i with
    | zero => simp [ofBits, getLsbD_bit]
    | succ i =>
      by_cases hi : i + 1 < w <;>
        simp only [ofBits, BitVec.getLsbD_or, getLsbD_bit, BitVec.getLsbD_shiftLeft, ih, hi]
      · simp [Nat.lt_of_succ_lt hi]
      · simp

/-- Up to its width, the register takes bits as it takes the word they spell. -/
theorem feed_eq_iterate_shift {bits : List Bool} (h : bits.length ≤ w) :
    feed P r bits = (shift P)^[bits.length] (r ^^^ ofBits w bits) := by
  induction bits generalizing r with
  | nil => simp [ofBits]
  | cons b bits ih =>
    have hlen : bits.length + 1 ≤ w := h
    have hor : ofBits w (b :: bits) = bit w b ^^^ (ofBits w bits <<< 1) := by
      refine BitVec.eq_of_getLsbD_eq fun i hi => ?_
      cases i <;> simp [ofBits, getLsbD_bit]
    have hmove : shift P (ofBits w bits <<< 1) = ofBits w bits := by
      rw [shift_of_even (by simp)]
      refine BitVec.eq_of_getLsbD_eq fun i hi => ?_
      simp only [BitVec.getLsbD_ushiftRight, BitVec.getLsbD_shiftLeft, getLsbD_ofBits]
      by_cases hi' : i + 1 < w
      · simp [Nat.add_comm 1 i, hi']
      · have hget : bits[i]? = none := List.getElem?_eq_none (by omega)
        simp [Nat.add_comm 1 i, hi', hget]
    rw [feed_cons, ih (Nat.le_of_succ_le hlen), List.length_cons, Function.iterate_succ_apply, hor,
      ← BitVec.xor_assoc, shift_xor (s := ofBits w bits <<< 1), hmove]

-- ---------------------------------------------------------------------------
-- Bursts
-- ---------------------------------------------------------------------------

theorem feed_ne_zero (hP : P.msb = true) (hr : r ≠ 0) {zeros : List Bool}
    (h : ∀ b ∈ zeros, b = false) : feed P r zeros ≠ 0 := by
  induction zeros generalizing r with
  | nil => exact hr
  | cons b zeros ih =>
    obtain rfl : b = false := h b (by simp)
    rw [feed_cons]
    exact ih (by simpa [bit] using shift_ne_zero hP hr) fun b hb => h b (by simp [hb])

theorem feed_zero {zeros : List Bool} (h : ∀ b ∈ zeros, b = false) : feed P 0#w zeros = 0#w := by
  induction zeros with
  | nil => rfl
  | cons b zeros ih =>
    obtain rfl : b = false := h b (by simp)
    simpa [bit] using ih fun b hb => h b (by simp [hb])

/-- A burst no longer than the register, among zeros, leaves a trace in it. -/
theorem feed_burst_ne_zero (hP : P.msb = true) {before burst after : List Bool}
    (hbefore : ∀ b ∈ before, b = false) (hafter : ∀ b ∈ after, b = false)
    (hlength : burst.length ≤ w) (hburst : true ∈ burst) :
    feed P 0#w (before ++ (burst ++ after)) ≠ 0#w := by
  rw [feed_append, feed_zero hbefore, feed_append]
  refine feed_ne_zero hP ?_ hafter
  rw [feed_eq_iterate_shift hlength, BitVec.zero_xor]
  have hword : ofBits w burst ≠ 0 := by
    intro hzero
    obtain ⟨i, hi, hbit⟩ := List.getElem_of_mem hburst
    have hget := getLsbD_ofBits (w := w) burst i
    simp [hzero, Nat.lt_of_lt_of_le hi hlength, List.getElem?_eq_getElem hi, hbit] at hget
  generalize ofBits w burst = word at hword
  induction burst.length generalizing word with
  | zero => exact hword
  | succ n ih => exact ih _ (shift_ne_zero hP hword)

end Crc
