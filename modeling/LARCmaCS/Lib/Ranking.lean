import Mathlib.Data.List.Sort
import Mathlib.Data.List.TakeWhile
import Mathlib.Order.Defs.LinearOrder

/-!
# Rankings

A ranking lists entries by falling key, earlier arrivals first among equals.
Keeping only the first `k` after every arrival gives the first `k` of the
ranking of them all (`foldl_take_rank`).
-/

namespace Ranking

variable {α κ : Type*} [LinearOrder κ] (key : α → κ)

/-- A new entry goes behind all that are at least as high. -/
def rank (l : List α) (x : α) : List α := l.orderedInsert (fun a b => key b < key a) x

def ranking (xs : List α) : List α := xs.foldl (rank key) []

def Descending (l : List α) : Prop := l.Pairwise fun a b => key b ≤ key a

/-- Where a new entry with key `c` goes. -/
def place (l : List α) (c : κ) : Nat := l.findIdx fun b => key b < c

variable {key} {l : List α} {x : α}

theorem place_le_length (l : List α) (c : κ) : place key l c ≤ l.length := List.findIdx_le_length

theorem rank_eq_place (l : List α) (x : α) :
    rank key l x = l.take (place key l (key x)) ++ x :: l.drop (place key l (key x)) := by
  induction l with
  | nil => rfl
  | cons b l ih =>
    rw [rank, List.orderedInsert_cons, place, List.findIdx_cons]
    by_cases hb : key b < key x
    · simp [hb]
    · rw [rank, place] at ih
      simp [hb, ih]

theorem perm_rank (l : List α) (x : α) : (rank key l x).Perm (x :: l) := List.perm_orderedInsert _ x l

theorem Descending.key_le (h : Descending key l) {i j : Nat} (hij : i < j) {a b : α}
    (hi : l[i]? = some a) (hj : l[j]? = some b) : key b ≤ key a := by
  obtain ⟨hilt, rfl⟩ := List.getElem?_eq_some_iff.mp hi
  obtain ⟨hjlt, rfl⟩ := List.getElem?_eq_some_iff.mp hj
  exact List.pairwise_iff_getElem.mp h i j hilt hjlt hij

theorem descending_rank (h : Descending key l) (x : α) : Descending key (rank key l x) := by
  induction l with
  | nil => exact List.pairwise_singleton _ x
  | cons b l ih =>
    obtain ⟨hb, hl⟩ := List.pairwise_cons.mp h
    rw [rank, List.orderedInsert_cons]
    split
    · rename_i hlt
      refine List.pairwise_cons.mpr ⟨fun c hc => ?_, h⟩
      rcases List.mem_cons.mp hc with rfl | hc
      · exact hlt.le
      · exact (hb c hc).trans hlt.le
    · rename_i hle
      refine List.pairwise_cons.mpr ⟨fun c hc => ?_, ih hl⟩
      rcases List.mem_cons.mp ((perm_rank l x).mem_iff.mp hc) with rfl | hc
      · exact not_lt.mp hle
      · exact hb c hc

theorem descending_ranking (xs : List α) : Descending key (ranking key xs) := by
  have hfoldl (l : List α) (h : Descending key l) : Descending key (xs.foldl (rank key) l) := by
    induction xs generalizing l with
    | nil => exact h
    | cons x xs ih => exact ih _ (descending_rank h x)
  exact hfoldl [] List.Pairwise.nil

/-- What is beyond `k` does not influence the first `k`. -/
theorem take_rank (k : Nat) (l : List α) (x : α) :
    (rank key (l.take k) x).take k = (rank key l x).take k := by
  induction l generalizing k with
  | nil => rw [List.take_nil]
  | cons b l ih =>
    cases k with
    | zero => rfl
    | succ k =>
      rw [List.take_succ_cons, rank, List.orderedInsert_cons, rank, List.orderedInsert_cons]
      split
      · cases k with
        | zero => rfl
        | succ k => simp [List.take_take]
      · rw [List.take_succ_cons, List.take_succ_cons]
        exact congrArg _ (ih k)

theorem foldl_take_rank (k : Nat) (xs l : List α) :
    xs.foldl (fun l x => (rank key l x).take k) (l.take k) = (xs.foldl (rank key) l).take k := by
  induction xs generalizing l with
  | nil => rfl
  | cons x xs ih => rw [List.foldl_cons, List.foldl_cons, take_rank, ih]

theorem best_eq_take_ranking (k : Nat) (xs : List α) :
    xs.foldl (fun l x => (rank key l x).take k) [] = (ranking key xs).take k := by
  simpa [ranking] using foldl_take_rank k xs []

/-- Insertion behind the equals and insertion before them commute. -/
theorem rank_orderedInsert (l : List α) (x y : α) :
    rank key (l.orderedInsert (fun a b => key b ≤ key a) y) x =
      (rank key l x).orderedInsert (fun a b => key b ≤ key a) y := by
  induction l with
  | nil =>
    rcases lt_or_ge (key y) (key x) with hyx | hyx
    · simp [rank, hyx, not_le.mpr hyx]
    · simp [rank, hyx, not_lt.mpr hyx]
  | cons b l ih =>
    rw [rank] at ih ⊢
    rw [rank] at ih ⊢
    rcases le_or_gt (key b) (key y) with hby | hby
    · rcases lt_or_ge (key y) (key x) with hyx | hyx
      · simp [hby, hyx, hby.trans_lt hyx, not_le.mpr hyx]
      · rcases lt_or_ge (key b) (key x) with hbx | hbx
        · simp [hby, hyx, hbx, not_lt.mpr hyx]
        · simp [hby, not_lt.mpr hyx, not_lt.mpr hbx]
    · rcases lt_or_ge (key b) (key x) with hbx | hbx
      · simp [not_le.mpr hby, hbx, not_le.mpr (hby.trans hbx)]
      · simp [not_le.mpr hby, not_lt.mpr hbx, ih]

theorem foldl_rank_orderedInsert (xs l : List α) (y : α) :
    xs.foldl (rank key) (l.orderedInsert (fun a b => key b ≤ key a) y) =
      (xs.foldl (rank key) l).orderedInsert (fun a b => key b ≤ key a) y := by
  induction xs generalizing l with
  | nil => rfl
  | cons x xs ih => rw [List.foldl_cons, List.foldl_cons, rank_orderedInsert, ih]

/-- A ranking is a stable sort. -/
theorem ranking_eq_insertionSort (xs : List α) :
    ranking key xs = xs.insertionSort fun a b => key b ≤ key a := by
  induction xs with
  | nil => rfl
  | cons y xs ih =>
    rw [List.insertionSort_cons, ← ih, ranking, ranking, List.foldl_cons]
    exact foldl_rank_orderedInsert xs [] y

theorem perm_ranking (xs : List α) : (ranking key xs).Perm xs := by
  rw [ranking_eq_insertionSort]
  exact List.perm_insertionSort _ xs

theorem place_take (k : Nat) (l : List α) (c : κ) :
    place key (l.take k) c = min k (place key l c) := List.findIdx_take

theorem Descending.place_eq_countP (h : Descending key l) (c : κ) :
    place key l c = l.countP (c ≤ key ·) := by
  induction l with
  | nil => rfl
  | cons b l ih =>
    obtain ⟨hb, hl⟩ := List.pairwise_cons.mp h
    rw [place, List.findIdx_cons]
    rcases lt_or_ge (key b) c with hlt | hge
    · have hnone : l.countP (c ≤ key ·) = 0 :=
        List.countP_eq_zero.mpr fun d hd => by simpa using (hb d hd).trans_lt hlt
      simp [hlt, hnone, not_le.mpr hlt]
    · rw [place] at ih
      simp [not_lt.mpr hge, hge, ih hl]

end Ranking
