import Mathlib.Tactic.Common
import LARCmaCS.CMVision.Runs

/-!
# What encodeRuns writes

`Encoded` is the invariant of the two loops: the runs written so far describe
the pixels before the current one. `encodeRuns_spec` gives it for the whole
image whenever the buffer was not filled.
-/

namespace LARCmaCS.CMVision

-- ---------------------------------------------------------------------------
-- The invariant
-- ---------------------------------------------------------------------------

def Run.Contains (r : Run) (c row : Nat) : Prop := r.y = row ∧ r.x ≤ c ∧ c < r.stop

/-- The first `n` runs describe the pixels before column `x` of row `y`. -/
structure Encoded (tmap : Image) (runs : Nat → Run) (n x y : Nat) : Prop where
  parent : ∀ k < n, (runs k).parent = k
  next : ∀ k < n, (runs k).next = 0
  pos : ∀ k < n, (runs k).x < (runs k).stop
  inside : ∀ k < n, (runs k).stop ≤ tmap.width ∧
    ((runs k).y < y ∨ (runs k).y = y ∧ (runs k).stop ≤ x)
  color : ∀ k < n, ∀ c row, (runs k).Contains c row → tmap.pixel c row = (runs k).color
  maximal : ∀ k < n, (runs k).stop = tmap.width ∨
    tmap.pixel (runs k).stop (runs k).y ≠ (runs k).color
  leftMaximal : ∀ k < n, (runs k).x = 0 ∨
    tmap.pixel ((runs k).x - 1) (runs k).y ≠ (runs k).color
  sorted : ∀ i k, i < k → k < n → (runs i).y < (runs k).y ∨
    (runs i).y = (runs k).y ∧ (runs i).stop ≤ (runs k).x
  cover : ∀ c row, c < tmap.width → (row < y ∨ row = y ∧ c < x) → tmap.pixel c row ≠ 0 →
    ∃ k < n, (runs k).Contains c row
  rowEnd : ∀ row, (row < y ∨ row = y ∧ x = tmap.width) →
    ∃ k < n, (runs k).y = row ∧ (runs k).stop = tmap.width

def Boundary (tmap : Image) (x y : Nat) : Prop :=
  x = 0 ∨ x = tmap.width ∨ tmap.pixel (x - 1) y ≠ tmap.pixel x y

-- ---------------------------------------------------------------------------
-- One run
-- ---------------------------------------------------------------------------

theorem runEnd_spec (tmap : Image) (y : Nat) (m : Raw8) (n x : Nat) :
    x ≤ runEnd tmap y m n x ∧ runEnd tmap y m n x ≤ x + n ∧
      (∀ c, x ≤ c → c < runEnd tmap y m n x → tmap.pixel c y = m) ∧
      (runEnd tmap y m n x = x + n ∨ tmap.pixel (runEnd tmap y m n x) y ≠ m) := by
  induction n generalizing x with
  | zero =>
    exact ⟨Nat.le_refl x, Nat.le_refl x, fun c h h' => absurd h' (by simpa [runEnd] using h), .inl rfl⟩
  | succ n ih =>
    rw [runEnd]
    split
    · rename_i hm
      obtain ⟨hle, hle', hcolor, hend⟩ := ih (x + 1)
      refine ⟨by omega, by omega, fun c hc hc' => ?_, ?_⟩
      · rcases Nat.lt_or_eq_of_le hc with hlt | rfl
        · exact hcolor c hlt hc'
        · exact hm
      · rcases hend with hend | hend
        · left
          omega
        · exact .inr hend
    · rename_i hm
      exact ⟨Nat.le_refl x, by omega, fun c h h' => absurd h' (by omega), .inr hm⟩

/-- The run that begins at column `x`, as an interval. -/
structure RunFrom (tmap : Image) (x y stop : Nat) : Prop where
  pos : x < stop
  inside : stop ≤ tmap.width
  color : ∀ c, x ≤ c → c < stop → tmap.pixel c y = tmap.pixel x y
  maximal : stop = tmap.width ∨ tmap.pixel stop y ≠ tmap.pixel x y

theorem runFrom_runEnd {tmap : Image} {x y : Nat} (hx : x < tmap.width) :
    RunFrom tmap x y (runEnd tmap y (tmap.pixel x y) (tmap.width - x) x) := by
  obtain ⟨hle, hle', hcolor, hend⟩ := runEnd_spec tmap y (tmap.pixel x y) (tmap.width - x) x
  have hend' : runEnd tmap y (tmap.pixel x y) (tmap.width - x) x = tmap.width ∨
      tmap.pixel (runEnd tmap y (tmap.pixel x y) (tmap.width - x) x) y ≠ tmap.pixel x y :=
    hend.imp_left fun h => by omega
  refine ⟨Nat.lt_of_le_of_ne hle fun heq => ?_, by omega, hcolor, hend'⟩
  rcases hend' with hend' | hend'
  · omega
  · exact hend' (by rw [← heq])

theorem RunFrom.boundary {tmap : Image} {x y stop : Nat} (h : RunFrom tmap x y stop) :
    Boundary tmap stop y := by
  rcases h.maximal with hend | hend
  · exact .inr (.inl hend)
  · refine .inr (.inr ?_)
    rw [h.color (stop - 1) (by have := h.pos; omega) (by have := h.pos; omega)]
    exact hend.symm

theorem Encoded.skip {tmap : Image} {runs : Nat → Run} {n x y stop : Nat}
    (h : Encoded tmap runs n x y) (hrun : RunFrom tmap x y stop) (hclear : tmap.pixel x y = 0)
    (hstop : stop ≠ tmap.width) : Encoded tmap runs n stop y := by
  refine { h with
    inside := fun k hk => ?_
    cover := fun c row hc hbefore hcolor => ?_
    rowEnd := fun row hrow => ?_ }
  · obtain ⟨hwidth, hbefore⟩ := h.inside k hk
    have := hrun.pos
    exact ⟨hwidth, by omega⟩
  · refine h.cover c row hc ?_ hcolor
    rcases hbefore with hlt | ⟨rfl, hlt⟩
    · exact .inl hlt
    · refine .inr ⟨rfl, Nat.lt_of_not_le fun hle => hcolor ?_⟩
      rw [hrun.color c hle hlt, hclear]
  · exact h.rowEnd row (hrow.imp_right fun ⟨_, hend⟩ => absurd hend hstop)

theorem Encoded.push {tmap : Image} {runs : Nat → Run} {n x y stop : Nat}
    (h : Encoded tmap runs n x y) (hrun : RunFrom tmap x y stop) (hboundary : Boundary tmap x y) :
    Encoded tmap (Function.update runs n ⟨x, y, stop - x, tmap.pixel x y, n, 0⟩) (n + 1) stop y := by
  have hpos := hrun.pos
  have hnew : Function.update runs n ⟨x, y, stop - x, tmap.pixel x y, n, 0⟩ n =
    ⟨x, y, stop - x, tmap.pixel x y, n, 0⟩ := Function.update_self ..
  have hold : ∀ k < n,
      Function.update runs n ⟨x, y, stop - x, tmap.pixel x y, n, 0⟩ k = runs k :=
    fun k hk => Function.update_of_ne (Nat.ne_of_lt hk) ..
  have hnewstop : Run.stop ⟨x, y, stop - x, tmap.pixel x y, n, 0⟩ = stop := by
    simp only [Run.stop]
    omega
  generalize Function.update runs n _ = runs' at hnew hold
  have hcases {P : Nat → Run → Prop} (hP : ∀ k < n, P k (runs k))
      (hP' : P n ⟨x, y, stop - x, tmap.pixel x y, n, 0⟩) : ∀ k < n + 1, P k (runs' k) := by
    intro k hk
    rcases Nat.lt_succ_iff_lt_or_eq.mp hk with hlt | rfl
    · rw [hold k hlt]
      exact hP k hlt
    · rw [hnew]
      exact hP'
  constructor
  · exact hcases (P := fun k r => r.parent = k) h.parent rfl
  · exact hcases (P := fun _ r => r.next = 0) h.next rfl
  · exact hcases (P := fun _ r => r.x < r.stop) h.pos (by rw [hnewstop]; exact hpos)
  · refine hcases (P := fun _ r => r.stop ≤ tmap.width ∧ (r.y < y ∨ r.y = y ∧ r.stop ≤ stop)) ?_ ?_
    · intro k hk
      obtain ⟨hwidth, hbefore⟩ := h.inside k hk
      exact ⟨hwidth, by omega⟩
    · rw [hnewstop]
      exact ⟨hrun.inside, .inr ⟨rfl, Nat.le_refl stop⟩⟩
  · refine hcases (P := fun _ r => ∀ c row, r.Contains c row → tmap.pixel c row = r.color) h.color ?_
    rintro c row ⟨rfl, hle, hlt⟩
    rw [hnewstop] at hlt
    exact hrun.color c hle hlt
  · refine hcases (P := fun _ r => r.stop = tmap.width ∨ tmap.pixel r.stop r.y ≠ r.color)
      h.maximal ?_
    rw [hnewstop]
    exact hrun.maximal
  · refine hcases (P := fun _ r => r.x = 0 ∨ tmap.pixel (r.x - 1) r.y ≠ r.color) h.leftMaximal ?_
    rcases hboundary with h0 | hend | hne
    · exact .inl h0
    · have := hrun.inside
      omega
    · exact .inr hne
  · intro i k hik hk
    have hi := hold i (by omega)
    rcases Nat.lt_succ_iff_lt_or_eq.mp hk with hlt | rfl
    · rw [hold k hlt, hi]
      exact h.sorted i k hik hlt
    · rw [hnew, hi]
      exact (h.inside i hik).2
  · intro c row hc hbefore hcolor
    by_cases hin : row = y ∧ x ≤ c
    · obtain ⟨rfl, hle⟩ := hin
      refine ⟨n, Nat.lt_succ_self n, ?_⟩
      rw [hnew]
      exact ⟨rfl, hle, by rw [hnewstop]; omega⟩
    · obtain ⟨k, hk, hcontains⟩ := h.cover c row hc (by omega) hcolor
      exact ⟨k, by omega, by rwa [hold k hk]⟩
  · intro row hrow
    by_cases hlast : row = y ∧ stop = tmap.width
    · refine ⟨n, Nat.lt_succ_self n, ?_⟩
      rw [hnew, hnewstop]
      exact ⟨hlast.1.symm, hlast.2⟩
    · obtain ⟨k, hk, hend⟩ := h.rowEnd row (by omega)
      exact ⟨k, by omega, by rwa [hold k hk]⟩

theorem Encoded.newline {tmap : Image} {runs : Nat → Run} {n y : Nat}
    (h : Encoded tmap runs n tmap.width y) (hwidth : 0 < tmap.width) :
    Encoded tmap runs n 0 (y + 1) := by
  refine { h with
    inside := fun k hk => ?_
    cover := fun c row hc hbefore hcolor => h.cover c row hc (by omega) hcolor
    rowEnd := fun row hrow => h.rowEnd row (by omega) }
  obtain ⟨hle, hbefore⟩ := h.inside k hk
  exact ⟨hle, .inl (by omega)⟩

-- ---------------------------------------------------------------------------
-- The loops
-- ---------------------------------------------------------------------------

theorem RunList.write_of_lt {l : RunList} {i : Nat} (h : i < l.maxRuns) (r : Run) :
    l.write i r = some { l with runs := Function.update l.runs i r } := if_pos h

theorem encodeRow_spec {tmap : Image} {y : Nat} (n x : Nat) (l : RunList) (j : Nat)
    (h : Encoded tmap l.runs j x y) (hboundary : Boundary tmap x y) (hx : x ≤ tmap.width)
    (hn : tmap.width ≤ x + n) (hj : j < l.maxRuns) :
    ∃ l' j' full, encodeRow tmap y n x l j = some (l', j', full) ∧ l'.maxRuns = l.maxRuns ∧
      if full then j' = l.maxRuns else j' < l.maxRuns ∧ Encoded tmap l'.runs j' tmap.width y := by
  induction n generalizing x l j with
  | zero =>
    obtain rfl : x = tmap.width := by omega
    exact ⟨l, j, false, by simp [encodeRow], rfl, by simpa using ⟨hj, h⟩⟩
  | succ n ih =>
    rw [encodeRow]
    split
    · rename_i hlt
      have hrun := runFrom_runEnd (y := y) hlt
      have hpos := hrun.pos
      simp only
      generalize runEnd tmap y (tmap.pixel x y) (tmap.width - x) x = stop at hrun hpos
      split
      · simp only [RunList.write_of_lt hj, Option.bind_eq_bind, Option.bind_some]
        have hpush := h.push hrun hboundary
        split
        · exact ⟨_, _, true, rfl, rfl, by simp; omega⟩
        · exact ih stop _ (j + 1) hpush hrun.boundary hrun.inside (by omega) (by simp; omega)
      · rename_i hskip
        rw [not_or, Decidable.not_not] at hskip
        exact ih stop l j (h.skip hrun hskip.1 hskip.2) hrun.boundary hrun.inside (by omega) hj
    · obtain rfl : x = tmap.width := by omega
      exact ⟨l, j, false, rfl, rfl, by simpa using ⟨hj, h⟩⟩

theorem encodeRows_spec {tmap : Image} (hwidth : 0 < tmap.width) (n y : Nat) (l : RunList) (j : Nat)
    (h : Encoded tmap l.runs j 0 y) (hj : j < l.maxRuns) :
    ∃ l' j', encodeRows tmap n y l j = some (l', j') ∧ l'.maxRuns = l.maxRuns ∧
      (j' < l.maxRuns → Encoded tmap l'.runs j' 0 (y + n)) := by
  induction n generalizing y l j with
  | zero => exact ⟨l, j, rfl, rfl, fun _ => h⟩
  | succ n ih =>
    obtain ⟨l', j', full, hrow, hmax, hfull⟩ :=
      encodeRow_spec tmap.width 0 l j h (.inl rfl) (Nat.zero_le _) (by omega) hj
    simp only [encodeRows, hrow, Option.bind_eq_bind, Option.bind_some]
    cases full with
    | true =>
      simp only [if_true] at hfull ⊢
      exact ⟨l', j', rfl, hmax, fun hlt => absurd hlt (by omega)⟩
    | false =>
      simp only [Bool.false_eq_true, if_false] at hfull ⊢
      obtain ⟨hj', hencoded⟩ := hfull
      obtain ⟨l'', j'', hrows, hmax', hspec⟩ :=
        ih (y + 1) l' j' (hencoded.newline hwidth) (by omega)
      refine ⟨l'', j'', hrows, hmax'.trans hmax, fun hlt => ?_⟩
      rw [Nat.add_right_comm] at hspec
      exact hspec (by omega)

theorem encoded_zero {tmap : Image} (hwidth : 0 < tmap.width) (runs : Nat → Run) :
    Encoded tmap runs 0 0 0 := by
  constructor <;> intros <;> omega

/-- The buffer takes every image; if it was not filled, its runs describe the
whole image. -/
theorem encodeRuns_spec {tmap : Image} (hwidth : 0 < tmap.width) (l : RunList) (hmax : 0 < l.maxRuns) :
    ∃ l', encodeRuns tmap l = some l' ∧ l'.maxRuns = l.maxRuns ∧
      (l'.usedRuns < l'.maxRuns → Encoded tmap l'.runs l'.usedRuns 0 tmap.height) := by
  obtain ⟨l', j', hrows, hmax', hspec⟩ :=
    encodeRows_spec hwidth tmap.height 0 l 0 (encoded_zero hwidth l.runs) hmax
  refine ⟨{ l' with usedRuns := j' }, by simp [encodeRuns, hrows], hmax', fun hlt => ?_⟩
  rw [Nat.zero_add] at hspec
  exact hspec (by simpa [hmax'] using hlt)

-- ---------------------------------------------------------------------------
-- The order of the runs
-- ---------------------------------------------------------------------------

section Order

variable {tmap : Image} {runs : Nat → Run} {n y : Nat} (h : Encoded tmap runs n 0 y)
include h

theorem Encoded.y_mono {i k : Nat} (hik : i ≤ k) (hk : k < n) : (runs i).y ≤ (runs k).y := by
  rcases Nat.lt_or_eq_of_le hik with hlt | rfl
  · rcases h.sorted i k hlt hk with hrow | ⟨hrow, -⟩
    · exact Nat.le_of_lt hrow
    · exact Nat.le_of_eq hrow
  · exact Nat.le_refl _

theorem Encoded.lt_of_y_lt {i k : Nat} (hi : i < n) (hrow : (runs i).y < (runs k).y) : i < k := by
  refine Nat.lt_of_not_le fun hle => ?_
  have := h.y_mono hle hi
  omega

theorem Encoded.row_lt {k : Nat} (hk : k < n) : (runs k).y < y := by
  have hpos := h.pos k hk
  have hbefore := (h.inside k hk).2
  omega

theorem Encoded.last_of_row {k : Nat} (hk : k < n) :
    ∃ e < n, k ≤ e ∧ (runs e).y = (runs k).y ∧ (runs e).stop = tmap.width := by
  obtain ⟨e, he, hrow, hend⟩ := h.rowEnd (runs k).y (.inl (h.row_lt hk))
  refine ⟨e, he, Nat.le_of_not_lt fun hlt => ?_, hrow, hend⟩
  have hpos := h.pos k hk
  have hwidth := (h.inside k hk).1
  have hsorted := h.sorted e k hlt hk
  omega

theorem Encoded.succ {k : Nat} (hk : k + 1 < n) :
    ((runs (k + 1)).y = (runs k).y ∧ (runs k).stop ≤ (runs (k + 1)).x) ∨
      ((runs (k + 1)).y = (runs k).y + 1 ∧ (runs k).stop = tmap.width) := by
  rcases h.sorted k (k + 1) (Nat.lt_succ_self k) hk with hrow | ⟨hrow, hle⟩
  · right
    obtain ⟨e, he, hke, herow, hend⟩ := h.last_of_row (k := k) (by omega)
    have hek : e < k + 1 := h.lt_of_y_lt he (by omega)
    obtain rfl : e = k := by omega
    refine ⟨Nat.le_antisymm (Nat.le_of_not_lt fun hgap => ?_) hrow, hend⟩
    obtain ⟨m, hm, hmrow, -⟩ := h.rowEnd ((runs e).y + 1) (.inl (Nat.lt_trans hgap (h.row_lt hk)))
    have hem : e < m := h.lt_of_y_lt he (by omega)
    have hme : m < e + 1 := h.lt_of_y_lt hm (by omega)
    omega
  · exact .inl ⟨hrow.symm, hle⟩

theorem Encoded.succ_of_lt_width {k : Nat} (hk : k < n) (hlt : (runs k).stop < tmap.width) :
    k + 1 < n ∧ (runs (k + 1)).y = (runs k).y := by
  obtain ⟨e, he, hke, herow, hend⟩ := h.last_of_row hk
  have hne : k ≠ e := by
    rintro rfl
    omega
  have hk' : k + 1 < n := by omega
  refine ⟨hk', ?_⟩
  rcases h.succ hk' with ⟨hrow, -⟩ | ⟨-, hend'⟩
  · exact hrow
  · omega

theorem Encoded.succ_of_eq_width {k : Nat} (hk : k + 1 < n) (heq : (runs k).stop = tmap.width) :
    (runs (k + 1)).y = (runs k).y + 1 := by
  rcases h.succ hk with ⟨-, hle⟩ | ⟨hrow, -⟩
  · have hpos := h.pos (k + 1) hk
    have hwidth := (h.inside (k + 1) hk).1
    omega
  · exact hrow

theorem Encoded.unique {i k c row : Nat} (hi : i < n) (hk : k < n) (hci : (runs i).Contains c row)
    (hck : (runs k).Contains c row) : i = k := by
  obtain ⟨hrow, hle, hlt⟩ := hci
  obtain ⟨hrow', hle', hlt'⟩ := hck
  rcases Nat.lt_trichotomy i k with hik | hik | hik
  · have := h.sorted i k hik hk
    omega
  · exact hik
  · have := h.sorted k i hik hi
    omega

end Order

end LARCmaCS.CMVision
