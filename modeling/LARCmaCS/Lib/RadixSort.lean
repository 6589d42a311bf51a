import Mathlib.Algebra.Group.Nat.Defs
import Mathlib.Data.List.Perm.Basic
import Mathlib.Tactic.Common

/-!
# Radix sort

Sorting by one digit at a time, the lowest first and larger digits in front.
A pass keeps the order of what it does not tell apart, so that after `n` passes
the list is in descending order of the last `n` digits, and as it was where
those agree (`pairwise_passes`).
-/

namespace RadixSort

variable {α : Type*}

/-- The elements whose digit is below `n`, those of the largest first. -/
def byDigit (d : α → Nat) : (n : Nat) → List α → List α
  | 0, _ => []
  | n + 1, xs => xs.filter (d · = n) ++ byDigit d n xs

def digit (base i n : Nat) : Nat := n / base ^ i % base

def passes (key : α → Nat) (base : Nat) : (n : Nat) → List α → List α
  | 0, xs => xs
  | n + 1, xs => byDigit (fun x => digit base n (key x)) base (passes key base n xs)

/-- Larger keys first, and in the order `R` where the keys agree. -/
def Desc (key : α → Nat) (R : α → α → Prop) (x y : α) : Prop :=
  key y < key x ∨ key x = key y ∧ R x y

variable {d key : α → Nat} {R : α → α → Prop} {base n : Nat} {xs : List α}

-- ---------------------------------------------------------------------------
-- One pass
-- ---------------------------------------------------------------------------

theorem byDigit_perm_filter (d : α → Nat) (n : Nat) (xs : List α) :
    (byDigit d n xs).Perm (xs.filter (d · < n)) := by
  induction n with
  | zero => simp [byDigit]
  | succ n ih =>
    have hnew : (xs.filter (d · < n + 1)).filter (d · = n) = xs.filter (d · = n) := by
      rw [List.filter_filter]
      refine List.filter_congr fun x _ => Bool.eq_iff_iff.mpr ?_
      simp only [Bool.and_eq_true, decide_eq_true_eq]
      omega
    have hrest : (xs.filter (d · < n + 1)).filter (fun x => !decide (d x = n)) =
        xs.filter (d · < n) := by
      rw [List.filter_filter]
      refine List.filter_congr fun x _ => Bool.eq_iff_iff.mpr ?_
      simp only [Bool.and_eq_true, Bool.not_eq_true', decide_eq_true_eq, decide_eq_false_iff_not]
      omega
    have hsplit := List.filter_append_perm (d · = n) (xs.filter (d · < n + 1))
    rw [hnew, hrest] at hsplit
    exact (ih.append_left _).trans hsplit

theorem byDigit_perm (h : ∀ x ∈ xs, d x < n) : (byDigit d n xs).Perm xs := by
  have hall : xs.filter (d · < n) = xs := List.filter_eq_self.mpr (by simpa using h)
  have hperm := byDigit_perm_filter d n xs
  rwa [hall] at hperm

theorem pairwise_byDigit (d : α → Nat) (n : Nat) (h : xs.Pairwise R) :
    (byDigit d n xs).Pairwise (Desc d R) := by
  induction n with
  | zero => exact List.Pairwise.nil
  | succ n ih =>
    refine List.pairwise_append.mpr ⟨?_, ih, fun x hx y hy => .inl ?_⟩
    · refine (h.filter _).imp_of_mem fun {x y} hx hy hxy => .inr ⟨?_, hxy⟩
      rw [of_decide_eq_true (List.mem_filter.mp hx).2, of_decide_eq_true (List.mem_filter.mp hy).2]
    · have hx := of_decide_eq_true (List.mem_filter.mp hx).2
      have hy := of_decide_eq_true
        (List.mem_filter.mp ((byDigit_perm_filter d n xs).mem_iff.mp hy)).2
      rwa [hx]

-- ---------------------------------------------------------------------------
-- All passes
-- ---------------------------------------------------------------------------

theorem passes_perm (key : α → Nat) (hbase : 0 < base) (n : Nat) (xs : List α) :
    (passes key base n xs).Perm xs := by
  induction n with
  | zero => exact .refl xs
  | succ n ih => exact (byDigit_perm fun x _ => Nat.mod_lt _ hbase).trans ih

theorem Desc.digit {x y : α}
    (h : Desc (fun x => digit base n (key x)) (Desc (fun x => key x % base ^ n) R) x y) :
    Desc (fun x => key x % base ^ (n + 1)) R x y := by
  simp only [Desc, RadixSort.digit] at h
  simp only [Desc, Nat.mod_pow_succ]
  rcases h with hdigit | ⟨hdigit, hlow | ⟨hlow, hR⟩⟩
  · refine .inl ?_
    have hpos : 0 < base ^ n := Nat.pos_of_ne_zero fun hzero => by
      simp [hzero] at hdigit
    calc key y % base ^ n + base ^ n * (key y / base ^ n % base)
        < base ^ n + base ^ n * (key y / base ^ n % base) :=
          Nat.add_lt_add_right (Nat.mod_lt _ hpos) _
      _ = base ^ n * (key y / base ^ n % base + 1) := by rw [Nat.mul_succ, Nat.add_comm]
      _ ≤ base ^ n * (key x / base ^ n % base) := Nat.mul_le_mul_left _ hdigit
      _ ≤ key x % base ^ n + base ^ n * (key x / base ^ n % base) := Nat.le_add_left ..
  · rw [hdigit]
    exact .inl (Nat.add_lt_add_right hlow _)
  · rw [hdigit, hlow]
    exact .inr ⟨rfl, hR⟩

theorem pairwise_passes (key : α → Nat) (base n : Nat) (h : xs.Pairwise R) :
    (passes key base n xs).Pairwise (Desc (fun x => key x % base ^ n) R) := by
  induction n with
  | zero => exact h.imp fun hR => .inr ⟨by simp [Nat.mod_one], hR⟩
  | succ n ih => exact (pairwise_byDigit _ base ih).imp Desc.digit

theorem pairwise_passes_of_lt (hbase : 0 < base) (hkey : ∀ x ∈ xs, key x < base ^ n)
    (h : xs.Pairwise R) : (passes key base n xs).Pairwise (Desc key R) := by
  refine (pairwise_passes key base n h).imp_of_mem fun {x y} hx hy hxy => ?_
  have hperm := passes_perm key hbase n xs
  simp only [Desc] at hxy
  rwa [Nat.mod_eq_of_lt (hkey x (hperm.mem_iff.mp hx)),
    Nat.mod_eq_of_lt (hkey y (hperm.mem_iff.mp hy))] at hxy

end RadixSort
