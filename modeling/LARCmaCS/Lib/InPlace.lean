import Mathlib.Logic.Function.Iterate
import Mathlib.Tactic.Common
import LARCmaCS.Lib.Ranking

/-!
# Arrays changed in place

Two loops over a short array. One inserts by falling key into an array of at
most `n` entries, moving what is behind down by one; it keeps the first `n` of
the ranking (`insertBest_eq`). The other closes the gaps that rejected entries
leave (`compact_eq_filter`).
-/

namespace InPlace

open Ranking (place rank)

variable {α κ : Type*}

-- ---------------------------------------------------------------------------
-- Insertion
-- ---------------------------------------------------------------------------

def shiftDown (i : Nat) (xs : List α) : Nat → List α
  | 0 => xs
  | j + 1 =>
    if j + 1 > i then
      match xs[j]? with
      | some x => shiftDown i (xs.set (j + 1) x) j
      | none => xs
    else xs

theorem getElem?_shiftDown {i j : Nat} {xs : List α} (hi : i ≤ j) (hj : j < xs.length) (k : Nat) :
    (shiftDown i xs j)[k]? = if i < k ∧ k ≤ j then xs[k - 1]? else xs[k]? := by
  induction j generalizing xs with
  | zero => rw [shiftDown, if_neg (by omega)]
  | succ j ih =>
    rw [shiftDown]
    rcases Nat.lt_or_ge i (j + 1) with hlt | hge
    · rw [if_pos hlt, List.getElem?_eq_getElem (show j < xs.length by omega)]
      dsimp only
      rw [ih (by omega) (by rw [List.length_set]; omega)]
      rcases Nat.lt_trichotomy k (j + 1) with hk | rfl | hk
      · rw [List.getElem?_set_ne (by omega), List.getElem?_set_ne (by omega)]
        simp only [show i < k ∧ k ≤ j ↔ i < k ∧ k ≤ j + 1 by omega]
      · rw [if_neg (by omega), if_pos (by omega), List.getElem?_set_self (by omega),
          Nat.add_sub_cancel, List.getElem?_eq_getElem (show j < xs.length by omega)]
      · rw [if_neg (by omega), if_neg (by omega), List.getElem?_set_ne (by omega)]
    · rw [if_neg (by omega), if_neg (by omega)]

theorem getElem?_insert {xs : List α} {i : Nat} (hi : i ≤ xs.length) (x : α) (k : Nat) :
    (xs.take i ++ x :: xs.drop i)[k]? =
      if k < i then xs[k]? else if k = i then some x else xs[k - 1]? := by
  have hlength : (xs.take i).length = i := by rw [List.length_take]; omega
  split
  · rename_i hk
    rw [List.getElem?_append_left (by omega), List.getElem?_take, if_pos hk]
  · split
    · rename_i hk
      rw [List.getElem?_append_right (by omega), hlength, hk, Nat.sub_self]
      rfl
    · rw [List.getElem?_append_right (by omega), hlength]
      obtain ⟨j, hj⟩ : ∃ j, k - i = j + 1 := ⟨k - i - 1, by omega⟩
      rw [hj, List.getElem?_cons_succ, List.getElem?_drop]
      congr 1
      omega

/-- Making room at `i` by a shift and writing there is an insertion, of which a
full array drops the end. -/
theorem set_shiftDown {xs : List α} {i n : Nat} (hi : i < xs.length) (hn : xs.length ≤ n)
    (blank x : α) :
    let xs' := if xs.length < n then xs ++ [blank] else xs
    (shiftDown i xs' (xs'.length - 1)).set i x = (xs.take i ++ x :: xs.drop i).take n := by
  intro xs'
  have hlength : xs.length ≤ xs'.length ∧ xs'.length ≤ n ∧
      (xs'.length = xs.length ∨ xs'.length = xs.length + 1) ∧
      (xs.length < n → xs'.length = xs.length + 1) := by
    simp only [xs']
    split
    · simp
      omega
    · omega
  have hold {k : Nat} (hk : k < xs.length) : xs'[k]? = xs[k]? := by
    simp only [xs']
    split
    · exact List.getElem?_append_left hk
    · rfl
  apply List.ext_getElem?
  intro k
  have hshift : (shiftDown i xs' (xs'.length - 1))[k]? =
      if i < k ∧ k ≤ xs'.length - 1 then xs'[k - 1]? else xs'[k]? :=
    getElem?_shiftDown (by omega) (by omega) k
  rw [List.getElem?_take, getElem?_insert hi.le]
  rcases Nat.lt_trichotomy k i with hk | rfl | hk
  · rw [List.getElem?_set_ne (by omega), hshift, if_neg (by omega), if_pos (by omega), if_pos hk,
      hold (by omega)]
  · have hlast : k < (shiftDown k xs' (xs'.length - 1)).length := by
      by_contra hle
      rw [List.getElem?_eq_none (by omega), if_neg (by omega), hold hi,
        List.getElem?_eq_getElem hi] at hshift
      cases hshift
    rw [List.getElem?_set_self hlast, if_pos (by omega), if_neg (by omega), if_pos rfl]
  · have hbehind : (if k < i then xs[k]? else if k = i then some x else xs[k - 1]?) =
        xs[k - 1]? := by
      rw [if_neg (by omega), if_neg (by omega)]
    rw [List.getElem?_set_ne (by omega), hshift, hbehind]
    by_cases hin : k ≤ xs'.length - 1
    · rw [if_pos ⟨hk, hin⟩, if_pos (by omega), hold (by omega)]
    · rw [if_neg (by omega), List.getElem?_eq_none (by omega)]
      split
      · exact (List.getElem?_eq_none (by omega)).symm
      · rfl

section Insertion

variable [LinearOrder κ] (key : α → κ)

/-- Inserts `x` before the first entry of less key; the array, and where `x` is
if it is there. -/
def insertBest (blank : α) (n : Int) (xs : List α) (x : α) : List α × Option Nat :=
  let i := xs.findIdx fun y => key y < key x
  if i < xs.length then
    let xs := if xs.length < n then xs ++ [blank] else xs
    ((shiftDown i xs (xs.length - 1)).set i x, some i)
  else if xs.length < n then (xs ++ [x], some xs.length)
  else (xs, none)

variable {key} {xs : List α} {n : Int}

/-- Of at most `n` entries and the new one the first `n` stay, and the new one
is reported unless it was dropped itself. -/
theorem insertBest_eq (blank : α) (h : xs.length ≤ n.toNat) (x : α) :
    insertBest key blank n xs x = ((rank key xs x).take n.toNat,
      if place key xs (key x) < n.toNat then some (place key xs (key x)) else none) := by
  have hplace : place key xs (key x) ≤ xs.length := Ranking.place_le_length _ _
  have hfull : ((xs.length : Int) < n) ↔ xs.length < n.toNat := by omega
  rw [insertBest, Ranking.rank_eq_place]
  simp only [hfull]
  change (if place key xs (key x) < xs.length then _ else _) = _
  generalize n.toNat = n at h
  by_cases hbefore : place key xs (key x) < xs.length
  · rw [if_pos hbefore, if_pos (show place key xs (key x) < n by omega)]
    exact congrArg (·, some (place key xs (key x))) (set_shiftDown hbefore h blank x)
  · rw [if_neg hbefore]
    have hend : place key xs (key x) = xs.length := by omega
    rw [hend, List.take_length, List.drop_length]
    split
    · rename_i hroom
      rw [List.take_of_length_le (by simp; omega)]
    · rename_i hfull
      have hlength : xs.length = n := by omega
      rw [← hlength, List.take_left]

theorem getElem?_insertBest (blank : α) (h : xs.length ≤ n.toNat) {x : α} {i : Nat}
    (hi : (insertBest key blank n xs x).2 = some i) :
    (insertBest key blank n xs x).1[i]? = some x := by
  rw [insertBest_eq blank h] at hi ⊢
  simp only [Option.ite_none_right_eq_some, Option.some.injEq] at hi
  obtain ⟨hi, rfl⟩ := hi
  rw [List.getElem?_take, if_pos hi, Ranking.rank_eq_place,
    getElem?_insert (Ranking.place_le_length _ _), if_neg (lt_irrefl _), if_pos rfl]

def fill (y : α) : List α × Option Nat → List α
  | (xs, some i) => xs.set i y
  | (xs, none) => xs

/-- An entry of the same key that is written over the new one ranks as it does. -/
theorem fill_insertBest (blank : α) (h : xs.length ≤ n.toNat) {x y : α} (hkey : key x = key y) :
    fill y (insertBest key blank n xs x) = (rank key xs y).take n.toNat := by
  have hplace : place key xs (key y) ≤ xs.length := Ranking.place_le_length _ _
  rw [insertBest_eq blank h, Ranking.rank_eq_place, Ranking.rank_eq_place, hkey, fill.eq_def]
  generalize place key xs (key y) = i at hplace
  generalize n.toNat = n
  by_cases hi : i < n
  · simp only [if_pos hi]
    rw [← List.take_set, List.set_append_right _ _ (by rw [List.length_take]; omega),
      List.length_take, Nat.min_eq_left hplace, Nat.sub_self, List.set_cons_zero]
  · simp only [if_neg hi]
    rw [List.take_append_of_le_length (by rw [List.length_take]; omega),
      List.take_append_of_le_length (by rw [List.length_take]; omega)]

end Insertion

-- ---------------------------------------------------------------------------
-- Closing gaps
-- ---------------------------------------------------------------------------

section Compaction

variable (keep : α → Prop) [DecidablePred keep]

def compactPass (s : List α × Nat) (src : Nat) : List α × Nat :=
  let (xs, tgt) := s
  match xs[src]? with
  | some x => if keep x then (if tgt ≠ src then xs.set tgt x else xs, tgt + 1) else (xs, tgt)
  | none => (xs, tgt)

def compact (xs : List α) : List α :=
  let size := xs.length
  let (xs, tgt) := (List.range size).foldl (compactPass keep) (xs, 0)
  List.dropLast^[size - tgt] xs

/-- After `src` passes the entries to keep among the first `src` stand in front
and the others have not been touched. -/
structure Compacted (xs : List α) (src : Nat) (s : List α × Nat) : Prop where
  length : s.1.length = xs.length
  tgt_le : s.2 ≤ src
  front : s.1.take s.2 = (xs.take src).filter keep
  rest : s.1.drop src = xs.drop src

theorem set_self {xs : List α} {tgt src : Nat} {x : α} (hsrc : xs[src]? = some x) :
    (if tgt ≠ src then xs.set tgt x else xs) = xs.set tgt x := by
  split
  · rfl
  · rename_i heq
    obtain rfl : tgt = src := not_not.mp heq
    obtain ⟨hlt, rfl⟩ := List.getElem?_eq_some_iff.mp hsrc
    exact (List.set_getElem_self hlt).symm

theorem compacted_foldl (xs : List α) {src : Nat} (h : src ≤ xs.length) :
    Compacted keep xs src ((List.range src).foldl (compactPass keep) (xs, 0)) := by
  induction src with
  | zero => exact ⟨rfl, Nat.le_refl 0, rfl, rfl⟩
  | succ src ih =>
    obtain ⟨hlength, htgt, hfront, hrest⟩ := ih (Nat.le_of_succ_le h)
    rw [List.range_succ, List.foldl_append, List.foldl_cons, List.foldl_nil]
    generalize (List.range src).foldl (compactPass keep) (xs, 0) = s at *
    obtain ⟨ys, tgt⟩ := s
    dsimp only at *
    have hsrc : ys[src]? = some xs[src] := by
      have hhead := congrArg (·[0]?) hrest
      simpa [List.getElem?_drop, List.getElem?_eq_getElem (show src < xs.length from h)]
        using hhead
    have hnext : ys.drop (src + 1) = xs.drop (src + 1) := by
      rw [← List.drop_drop, hrest, List.drop_drop]
    have htake : (xs.take (src + 1)).filter keep =
        (xs.take src).filter keep ++ if keep xs[src] then [xs[src]] else [] := by
      rw [List.take_succ_eq_append_getElem h, List.filter_append]
      congr 1
      by_cases hkeep : keep xs[src] <;> simp [hkeep]
    rw [compactPass, hsrc]
    dsimp only
    by_cases hkeep : keep xs[src]
    · rw [if_pos hkeep, set_self hsrc]
      refine ⟨by rw [List.length_set, hlength], by omega, ?_, ?_⟩
      · rw [htake, if_pos hkeep, ← hfront, List.take_succ_eq_append_getElem (by simp; omega),
          List.take_set_of_le (Nat.le_refl tgt)]
        simp
      · rw [List.drop_set_of_lt (by omega), hnext]
    · rw [if_neg hkeep]
      refine ⟨hlength, by omega, ?_, hnext⟩
      rw [htake, if_neg hkeep, List.append_nil, hfront]

theorem iterate_dropLast (xs : List α) (n : Nat) :
    List.dropLast^[n] xs = xs.take (xs.length - n) := by
  induction n generalizing xs with
  | zero => simp
  | succ n ih =>
    rw [Function.iterate_succ_apply, ih, List.dropLast_eq_take, List.take_take, List.length_take]
    congr 1
    omega

theorem compact_eq_filter (xs : List α) : compact keep xs = xs.filter keep := by
  have hcompacted := compacted_foldl keep xs (Nat.le_refl _)
  rw [compact]
  generalize (List.range xs.length).foldl (compactPass keep) (xs, 0) = s at *
  obtain ⟨hlength, htgt, hfront, -⟩ := hcompacted
  dsimp only
  rw [iterate_dropLast, hlength, Nat.sub_sub_self htgt, hfront, List.take_length]

end Compaction

end InPlace
