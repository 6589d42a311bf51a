import Mathlib.Data.Int.Interval
import Mathlib.Data.Set.Card
import Mathlib.Order.Interval.Finset.Nat
import LARCmaCS.Lut3d.Segment

/-!
# The flood fill is exact on regions of few runs

`fillLoop_run`: the segment loop ends, and keeps what every round keeps. Each
run that is filled leaves at most one segment more on the stack, so the stack
suffices for a region with fewer runs than it has entries, and
`maskFillYZ_exact`: in numeric mode the fill reaches that region and nothing
else.
-/

namespace LARCmaCS

open SeedFill

-- ---------------------------------------------------------------------------
-- The stack
-- ---------------------------------------------------------------------------

section Stack

variable {depth maxZ : Nat} {stack pushed : List Span} {s q : Span}

def InRange (maxZ : Nat) (s : Span) : Prop := 0 ≤ s.row ∧ s.row ≤ maxZ

instance (maxZ : Nat) (s : Span) : Decidable (InRange maxZ s) := inferInstanceAs (Decidable (_ ∧ _))

theorem push_cases (depth maxZ : Nat) (stack : List Span) (s : Span) :
    (stack.length < depth ∧ InRange maxZ s ∧ LUTFILL_PUSH depth maxZ stack s = s :: stack) ∨
      (¬ (stack.length < depth ∧ InRange maxZ s) ∧ LUTFILL_PUSH depth maxZ stack s = stack) := by
  by_cases h : stack.length < depth ∧ InRange maxZ s
  · exact .inl ⟨h.1, h.2, if_pos h⟩
  · exact .inr ⟨h, if_neg h⟩

theorem mem_pushes (hq : q ∈ pushed.foldl (LUTFILL_PUSH depth maxZ) stack) :
    (q ∈ pushed ∧ InRange maxZ q) ∨ q ∈ stack := by
  induction pushed generalizing stack with
  | nil => exact .inr hq
  | cons s pushed ih =>
    rcases ih hq with ⟨hq, hrange⟩ | hq
    · exact .inl ⟨List.mem_cons_of_mem _ hq, hrange⟩
    · obtain ⟨-, hrange, hpush⟩ | ⟨-, hpush⟩ := push_cases depth maxZ stack s <;> rw [hpush] at hq
      · rcases List.mem_cons.mp hq with rfl | hq
        · exact .inl ⟨List.mem_cons_self, hrange⟩
        · exact .inr hq
      · exact .inr hq

theorem pushes_of_room
    (h : stack.length + (pushed.filter (InRange maxZ)).length ≤ depth) :
    pushed.foldl (LUTFILL_PUSH depth maxZ) stack =
      (pushed.filter (InRange maxZ)).reverse ++ stack := by
  induction pushed generalizing stack with
  | nil => rfl
  | cons s pushed ih =>
    rw [List.foldl_cons]
    by_cases hrange : InRange maxZ s
    · have hfilter : (s :: pushed).filter (InRange maxZ) = s :: pushed.filter (InRange maxZ) :=
        List.filter_cons_of_pos (decide_eq_true hrange)
      rw [hfilter, List.length_cons] at h
      have hpush : LUTFILL_PUSH depth maxZ stack s = s :: stack := if_pos ⟨by omega, hrange⟩
      rw [hpush, ih (by rw [List.length_cons]; omega), hfilter, List.reverse_cons,
        List.append_assoc]
      rfl
    · have hfilter : (s :: pushed).filter (InRange maxZ) = pushed.filter (InRange maxZ) :=
        List.filter_cons_of_neg (by simpa using hrange)
      have hpush : LUTFILL_PUSH depth maxZ stack s = stack := if_neg fun hpush => hrange hpush.2
      rw [hfilter] at h ⊢
      rw [hpush, ih h]

end Stack

-- ---------------------------------------------------------------------------
-- The segment loop
-- ---------------------------------------------------------------------------

namespace MaskFill

variable {f : MaskFill} {depth : Nat} {t t' : LUT3D} {s : Span} {pushed rest : List Span}

theorem grid_finite (t : LUT3D) : t.Grid.Finite := by
  refine ((Set.finite_Icc 0 t.getMaxY).prod (Set.finite_Icc 0 (t.getMaxZ : Int))).subset ?_
  rintro p ⟨hy, hz⟩
  exact ⟨⟨Nat.zero_le _, hy⟩, hz⟩

theorem old_finite (t : LUT3D) : (f.old t).Finite := (grid_finite t).subset old_subset

structure Rounds (f : MaskFill) (s : Span) (t t' : LUT3D) (pushed : List Span) : Prop where
  segment : ∀ depth stack, f.fillSegment depth s t stack =
    some (t', pushed.foldl (LUTFILL_PUSH depth t.getMaxZ) stack)
  painted : f.Painted (Row s.row (s.Hit (f.old t))) t t'
  sweep : Sweep Set.univ (f.old t) s pushed
  tally : ∃ left onward right, pushed = left ++ onward ++ right ∧
    Tally (f.old t) s left onward right
  old : f.old t' = s.swept (f.old t)

theorem row_hit_subset : Row s.row (s.Hit (f.old t)) ⊆ f.old t := by
  rintro ⟨c, r⟩ ⟨rfl, hc⟩
  exact hc.mem

theorem exists_round (hstops : f.Stops) (hs : Fits t s) : ∃ t' pushed, Rounds f s t t' pushed := by
  obtain ⟨t', pushed, hround, hpainted, hsweep, htally⟩ := fillSegment_spec hstops hs
  refine ⟨t', pushed, hround, hpainted, hsweep, htally, ?_⟩
  rw [hpainted.old hstops row_hit_subset]
  rfl

theorem Rounds.fits (h : Rounds f s t t' pushed) (hrest : ∀ q ∈ rest, Fits t q) :
    ∀ q ∈ pushed.foldl (LUTFILL_PUSH depth t.getMaxZ) rest, Fits t' q := by
  intro q hq
  suffices Fits t q by
    refine ⟨this.le, ?_, this.low, ?_⟩
    · rw [h.painted.getMaxY]
      exact this.width
    · rw [h.painted.getMaxZ]
      exact this.high
  rcases mem_pushes hq with ⟨hq, hrange⟩ | hq
  · have hle := h.sweep.le q hq
    exact ⟨hle, (h.sweep.hit q hq q.xr ⟨hle, Nat.le_refl _⟩).mem.1.1, hrange.1, hrange.2⟩
  · exact hrest q hq

theorem Rounds.idle (h : Rounds f s t t' pushed) (hclear : ∀ c, ¬ s.Hit (f.old t) c) :
    t' = t ∧ pushed = [] := by
  have hempty : Row s.row (s.Hit (f.old t)) = ∅ :=
    Set.eq_empty_iff_forall_notMem.mpr fun p hp => hclear p.1 hp.2
  have hpainted := h.painted
  rw [hempty] at hpainted
  refine ⟨painted_empty hpainted, List.eq_nil_iff_forall_not_mem.mpr fun q hq => hclear q.xl ?_⟩
  exact h.sweep.hit q hq q.xl ⟨Nat.le_refl _, h.sweep.le q hq⟩

/-- The segment loop ends, and what every round keeps holds at its end. -/
theorem fillLoop_run {P : LUT3D → List Span → Prop} (hstops : f.Stops)
    (hround : ∀ t s rest t' pushed, Rounds f s t t' pushed → P t (s :: rest) →
      P t' (pushed.foldl (LUTFILL_PUSH depth t.getMaxZ) rest))
    {t : LUT3D} {stack : List Span} (hstart : P t stack) (hfits : ∀ s ∈ stack, Fits t s) :
    ∃ rounds t', (∀ n, rounds ≤ n → f.fillLoop depth n t stack = some t') ∧ P t' [] := by
  -- a round either fills a cell, or pops its segment and pushes none
  induction hold : (f.old t).ncard using Nat.strongRecOn generalizing t stack with
  | ind cells ihcells =>
    induction stack with
    | nil =>
      refine ⟨0, t, fun n _ => ?_, hstart⟩
      cases n <;> rfl
    | cons s rest ihrest =>
      have hs := hfits s List.mem_cons_self
      have hrest : ∀ q ∈ rest, Fits t q := fun q hq => hfits q (List.mem_cons_of_mem _ hq)
      obtain ⟨t', pushed, hrounds⟩ := exists_round hstops hs
      have hP := hround t s rest t' pushed hrounds hstart
      have hfits' : ∀ q ∈ pushed.foldl (LUTFILL_PUSH depth t.getMaxZ) rest, Fits t' q :=
        hrounds.fits hrest
      have hnext : ∃ rounds t'', (∀ n, rounds ≤ n → f.fillLoop depth n t'
          (pushed.foldl (LUTFILL_PUSH depth t.getMaxZ) rest) = some t'') ∧ P t'' [] := by
        by_cases hhit : ∃ c, s.Hit (f.old t) c
        · refine ihcells (f.old t').ncard ?_ hP hfits' rfl
          obtain ⟨c, hc⟩ := hhit
          rw [← hold, hrounds.old]
          refine Set.ncard_lt_ncard ⟨fun p hp => hp.1, fun hsub => ?_⟩ (old_finite t)
          exact (hsub hc.mem).2 ⟨rfl, hc⟩
        · obtain ⟨rfl, hpushed⟩ := hrounds.idle (not_exists.mp hhit)
          rw [hpushed] at hP ⊢
          exact ihrest hP hrest
      obtain ⟨rounds, t'', hloop, hend⟩ := hnext
      refine ⟨rounds + 1, t'', fun n hn => ?_, hend⟩
      obtain ⟨m, rfl⟩ : ∃ m, n = m + 1 := ⟨n - 1, by omega⟩
      simp only [fillLoop, hrounds.segment, Option.bind_eq_bind, Option.bind_some]
      exact hloop m (by omega)

-- ---------------------------------------------------------------------------
-- A region with few runs
-- ---------------------------------------------------------------------------

section Exact

variable {S : Set Cell} {o : Cell} {t₀ : LUT3D}

theorem Rounds.inRange (h : Rounds f s t t' pushed) (hS : S ⊆ t.Grid) :
    Sweep S (f.old t) s (pushed.filter (InRange t.getMaxZ)) := by
  obtain ⟨hle, hrow, hdir, hhit, honward, hback⟩ := h.sweep
  have hmem {q : Span} (hq : q ∈ pushed.filter (InRange t.getMaxZ)) : q ∈ pushed :=
    List.mem_of_mem_filter hq
  have hfilter {q : Span} {c : Nat} (hq : q ∈ pushed) (hqS : (c, q.row) ∈ S) :
      q ∈ pushed.filter (InRange t.getMaxZ) :=
    List.mem_filter.mpr ⟨hq, decide_eq_true (hS hqS).2⟩
  refine ⟨fun q hq => hle q (hmem hq), fun q hq => hrow q (hmem hq), fun q hq => hdir q (hmem hq),
    fun q hq => hhit q (hmem hq), fun c hc hcS => ?_, fun c hc hcovers hcS => ?_⟩
  · obtain ⟨q, hq, hdy, hqc⟩ := honward c hc trivial
    exact ⟨q, hfilter (c := c) hq (by rwa [Span.row, hrow q hq, hdy]), hdy, hqc⟩
  · obtain ⟨q, hq, hdy, hqc⟩ := hback c hc hcovers trivial
    exact ⟨q, hfilter (c := c) hq (by rwa [Span.row, hrow q hq, hdy]), hdy, hqc⟩

theorem Rounds.tally_inRange (h : Rounds f s t t' pushed) :
    ∃ left onward right, pushed.filter (InRange t.getMaxZ) = left ++ onward ++ right ∧
      Tally (f.old t) s left onward right := by
  obtain ⟨left, onward, right, hpushed, htally⟩ := h.tally
  refine ⟨_, _, _, ?_, htally.filter (InRange t.getMaxZ)⟩
  rw [hpushed, List.filter_append, List.filter_append]

/-- The state of an exact fill of the cells `S` from `t₀`. -/
structure FillState (f : MaskFill) (S : Set Cell) (o : Cell) (t₀ t : LUT3D) (stack : List Span) :
    Prop where
  filling : Filling S o (f.old t) stack
  painted : f.Painted (S \ f.old t) t₀ t
  budget : Budget S (f.old t) stack

/-- What is pending fits on the stack if the region has few runs. -/
theorem FillState.length_le {stack : List Span} (hS : S ⊆ t₀.Grid) (h : FillState f S o t₀ t stack) :
    stack.length ≤ (leftEnds (Region S o)).ncard + 4 :=
  h.budget.length_le.trans
    (Nat.add_le_add_right (h.filling.ncard_le ((grid_finite t₀).subset hS)) 4)

theorem Rounds.painted_sdiff (h : Rounds f s t t' pushed) (hS : S ⊆ t₀.Grid) (hold : f.old t ⊆ S)
    (hpainted : f.Painted (S \ f.old t) t₀ t) : f.Painted (S \ f.old t') t₀ t' := by
  have hunion : S \ f.old t' = (S \ f.old t) ∪ Row s.row (s.Hit (f.old t)) := by
    ext p
    rw [h.old]
    constructor
    · rintro ⟨hpS, hp⟩
      by_cases hpold : p ∈ f.old t
      · exact .inr (not_mem_swept hpold hp)
      · exact .inl ⟨hpS, hpold⟩
    · rintro (⟨hpS, hp⟩ | hp)
      · exact ⟨hpS, fun hswept => hp hswept.1⟩
      · exact ⟨hold (row_hit_subset hp), fun hswept => hswept.2 hp⟩
  rw [hunion]
  refine hpainted.trans h.painted (fun p hp => hS hp.1) ?_ ?_
  · exact fun p hp => hS (hold (row_hit_subset hp))
  · exact fun p hp hp' => hp.2 (row_hit_subset hp')

theorem FillState.round (hS : S ⊆ t₀.Grid)
    (hruns : (leftEnds (Region S o)).ncard + 4 ≤ depth) (h : FillState f S o t₀ t (s :: rest))
    (hrounds : Rounds f s t t' pushed) :
    FillState f S o t₀ t' (pushed.foldl (LUTFILL_PUSH depth t.getMaxZ) rest) := by
  have hsweep := hrounds.inRange (S := S) (by rwa [h.painted.grid])
  obtain ⟨left, onward, right, hsplit, htally⟩ := hrounds.tally_inRange
  have hnext : FillState f S o t₀ t' ((pushed.filter (InRange t.getMaxZ)).reverse ++ rest) := by
    refine ⟨?_, hrounds.painted_sdiff hS h.filling.sub h.painted, ?_⟩
    · rw [hrounds.old]
      exact h.filling.sweep hsweep fun q => by rw [List.mem_append, List.mem_reverse]
    · rw [hsplit] at hsweep ⊢
      rw [hrounds.old]
      exact h.budget.sweep h.filling ((grid_finite t₀).subset hS) hsweep htally
  have hlength := (hnext.length_le hS).trans hruns
  rw [List.length_append, List.length_reverse, Nat.add_comm] at hlength
  rwa [pushes_of_room hlength]

/-- The segments on the stack below the seed that is popped first. -/
def upperSeed (t : LUT3D) (y z : Nat) : List Span :=
  if z + 1 ≤ t.getMaxZ then [⟨y, y, z, 1⟩] else []

theorem length_upperSeed (t : LUT3D) (y z : Nat) : (upperSeed t y z).length ≤ 1 := by
  rw [upperSeed]
  split <;> simp

theorem seeds_eq {y z : Nat} (hdepth : 2 ≤ depth) (hz : z ≤ t.getMaxZ) :
    t.seeds depth y z = ⟨y, y, z + 1, -1⟩ :: upperSeed t y z := by
  have hupper : LUTFILL_PUSH depth t.getMaxZ [] ⟨y, y, z, 1⟩ = upperSeed t y z := by
    rw [LUTFILL_PUSH, upperSeed, List.length_nil]
    by_cases hz' : z + 1 ≤ t.getMaxZ
    · rw [if_pos hz', if_pos (by simp only; omega)]
    · rw [if_neg hz', if_neg (by simp only; omega)]
  have hlength := length_upperSeed t y z
  simp only [LUT3D.seeds, hupper]
  exact if_pos ⟨by omega, by simp only; omega, by simp only; omega⟩

theorem fits_seeds {y z : Nat} (hdepth : 2 ≤ depth) (hy : y ≤ t.getMaxY) (hz : z ≤ t.getMaxZ) :
    ∀ q ∈ t.seeds depth y z, Fits t q := by
  intro q hq
  rw [seeds_eq hdepth hz, List.mem_cons, upperSeed] at hq
  rcases hq with rfl | hq
  · refine ⟨Nat.le_refl y, hy, ?_, ?_⟩ <;> simp only [Span.row] <;> omega
  · split at hq
    · obtain rfl := List.mem_singleton.mp hq
      refine ⟨Nat.le_refl y, hy, ?_, ?_⟩ <;> simp only [Span.row] <;> omega
    · cases hq

theorem FillState.first {y z : Nat} (ho : (y, (z : Int)) ∈ f.old t)
    (hruns : (leftEnds (Region (f.old t) (y, (z : Int)))).ncard + 4 ≤ depth)
    (hrounds : Rounds f ⟨y, y, z + 1, -1⟩ t t' pushed) :
    FillState f (f.old t) (y, z) t t'
      (pushed.foldl (LUTFILL_PUSH depth t.getMaxZ) (upperSeed t y z)) := by
  have hupper (q : Span) : q ∈ upperSeed t y z ↔ z + 1 ≤ t.getMaxZ ∧ q = ⟨y, y, z, 1⟩ := by
    rw [upperSeed]
    split <;> simp [*]
  have hsweep := hrounds.inRange (S := f.old t) old_subset
  obtain ⟨left, onward, right, hsplit, htally⟩ := hrounds.tally_inRange
  have hnext : FillState f (f.old t) (y, z) t t'
      ((pushed.filter (InRange t.getMaxZ)).reverse ++ upperSeed t y z) := by
    refine ⟨?_, ?_, ?_⟩
    · rw [hrounds.old]
      refine Filling.first ho hsweep (fun q hq => ?_) (fun q hq => ?_) fun hz => ?_
      · rcases List.mem_append.mp hq with hq | hq
        · exact .inl (List.mem_reverse.mp hq)
        · exact .inr ((hupper q).mp hq).2
      · exact List.mem_append_left _ (List.mem_reverse.mpr hq)
      · have hz' := hz.1.2.2
        simp only at hz'
        exact List.mem_append_right _ ((hupper _).mpr ⟨by omega, rfl⟩)
    · refine hrounds.painted_sdiff old_subset subset_rfl ?_
      rw [Set.sdiff_self]
      exact painted_nil
    · rw [hsplit] at hsweep ⊢
      rw [hrounds.old]
      exact Budget.first (old_finite t) hsweep htally (length_upperSeed t y z)
  have hlength := (hnext.length_le old_subset).trans hruns
  rw [List.length_append, List.length_reverse, Nat.add_comm] at hlength
  rwa [pushes_of_room hlength]

/-- From an old origin whose region has few runs, the fill paints that region. -/
theorem fill_exact {y z : Nat} (hstops : f.Stops) (ho : (y, (z : Int)) ∈ f.old t)
    (hruns : (leftEnds (Region (f.old t) (y, (z : Int)))).ncard + 4 ≤ depth) :
    ∃ rounds t', (∀ n, rounds ≤ n → f.fillLoop depth n t (t.seeds depth y z) = some t') ∧
      f.Painted (Region (f.old t) (y, z)) t t' := by
  have hz : z ≤ t.getMaxZ := Int.ofNat_le.mp ho.1.2.2
  have hdepth : 2 ≤ depth := by omega
  have hfits := fits_seeds hdepth ho.1.1 hz
  rw [seeds_eq hdepth hz] at hfits ⊢
  obtain ⟨t', pushed, hrounds⟩ := exists_round hstops (hfits _ List.mem_cons_self)
  have hupper : ∀ q ∈ upperSeed t y z, Fits t q := fun q hq => hfits q (List.mem_cons_of_mem _ hq)
  have hfirst := FillState.first ho hruns hrounds
  obtain ⟨rounds, t'', hloop, hend⟩ := fillLoop_run hstops
    (P := FillState f (f.old t) (y, z) t)
    (fun _ _ _ _ _ hrounds' hstate => hstate.round old_subset hruns hrounds') hfirst
    (hrounds.fits hupper)
  refine ⟨rounds + 1, t'', fun n hn => ?_, ?_⟩
  · obtain ⟨m, rfl⟩ : ∃ m, n = m + 1 := ⟨n - 1, by omega⟩
    simp only [fillLoop, hrounds.segment, Option.bind_eq_bind, Option.bind_some]
    exact hloop m (by omega)
  · have hregion : f.old t \ f.old t'' = Region (f.old t) (y, z) := by
      ext p
      constructor
      · rintro ⟨hp, hp'⟩
        exact (hend.filling.filled_iff p hp).mp hp'
      · intro hp
        have hpold := region_subset ho hp
        exact ⟨hpold, (hend.filling.filled_iff p hpold).mpr hp⟩
    rw [← hregion]
    exact hend.painted

end Exact

end MaskFill

-- ---------------------------------------------------------------------------
-- maskFillYZ in numeric mode
-- ---------------------------------------------------------------------------

namespace LUT3D

/-- The cells of the slice that hold the origin's value and are connected with it. -/
def originRegion (t : LUT3D) (slice_x origin_y origin_z : Nat) : Set Cell :=
  Region {p | p ∈ t.Grid ∧
    t.get_preshrunk slice_x p.1 p.2 = t.get_preshrunk slice_x origin_y origin_z} (origin_y, origin_z)

structure SetTo (t t' : LUT3D) (slice_x : Nat) (N : Set Cell) (v : LutMask) : Prop where
  bits : t' = { t with LUT := t'.LUT }
  within : ∀ p ∈ N, t.preshrunk slice_x p.1 p.2 < t.LUT_SIZE
  inside : ∀ p ∈ N, t'.get_preshrunk slice_x p.1 p.2 = v
  outside : ∀ i, (∀ p ∈ N, i ≠ t.preshrunk slice_x p.1 p.2) → t'.LUT i = t.LUT i

/-- The fill ends with the origin's region set to the new color, or to 0 if it
removes, and nothing else changed. -/
def FillsExactly (t : LUT3D) (slice_x origin_y origin_z : Nat) (new_color : LutMask)
    (remove check_exact write_exclusive : Bool) : Prop :=
  ∃ rounds t', (∀ n, rounds ≤ n → t.maskFillYZ n slice_x origin_y origin_z new_color .numeric remove
      check_exact write_exclusive = some t') ∧
    t.SetTo t' slice_x (t.originRegion slice_x origin_y origin_z) (if remove then 0 else new_color)

/-- The runs of the origin's region along the rows of the slice. -/
noncomputable def originRuns (t : LUT3D) (slice_x origin_y origin_z : Nat) : Nat :=
  (leftEnds (t.originRegion slice_x origin_y origin_z)).ncard

section Numeric

variable (t : LUT3D) (slice_x origin_y origin_z : Nat) (new_color : LutMask)
  (remove check_exact write_exclusive : Bool)

theorem fills_numeric (v : LutMask) :
    (t.maskFill slice_x origin_y origin_z new_color .numeric remove check_exact
      write_exclusive).fills v = true ↔ v = t.get_preshrunk slice_x origin_y origin_z := by
  simp [MaskFill.fills, maskFill]

theorem target_numeric (v : LutMask) :
    (t.maskFill slice_x origin_y origin_z new_color .numeric remove check_exact
      write_exclusive).target v = if remove then 0 else new_color := by
  simp [MaskFill.target, maskFill]

theorem done_numeric :
    (t.maskFill slice_x origin_y origin_z new_color .numeric remove check_exact
      write_exclusive).done = true ↔
      t.get_preshrunk slice_x origin_y origin_z = if remove then 0 else new_color := by
  cases remove <;> simp [MaskFill.done, maskFill]

theorem old_numeric :
    (t.maskFill slice_x origin_y origin_z new_color .numeric remove check_exact
      write_exclusive).old t = {p | p ∈ t.Grid ∧
        t.get_preshrunk slice_x p.1 p.2 = t.get_preshrunk slice_x origin_y origin_z} := by
  ext p
  exact and_congr_right fun _ => fills_numeric ..

end Numeric

theorem originRuns_le (t : LUT3D) {slice_x origin_y origin_z : Nat} (hy : origin_y ≤ t.getMaxY)
    (hz : origin_z ≤ t.getMaxZ) :
    t.originRuns slice_x origin_y origin_z ≤ (t.getMaxY + 1) * (t.getMaxZ + 1) := by
  have horigin : (origin_y, (origin_z : Int)) ∈ t.Grid :=
    ⟨hy, Int.natCast_nonneg _, Int.ofNat_le.mpr hz⟩
  have hgrid : t.Grid = Set.Iic t.getMaxY ×ˢ Set.Icc 0 (t.getMaxZ : Int) := rfl
  have horigin' : (origin_y, (origin_z : Int)) ∈ {p | p ∈ t.Grid ∧ t.get_preshrunk slice_x p.1 p.2 =
      t.get_preshrunk slice_x origin_y origin_z} := ⟨horigin, rfl⟩
  have hsub : leftEnds (t.originRegion slice_x origin_y origin_z) ⊆ t.Grid :=
    leftEnds_subset.trans ((region_subset horigin').trans fun _ hp => hp.1)
  calc t.originRuns slice_x origin_y origin_z ≤ t.Grid.ncard :=
        Set.ncard_le_ncard hsub (MaskFill.grid_finite t)
    _ = (t.getMaxY + 1) * (t.getMaxZ + 1) := by
        rw [hgrid, Set.ncard_prod]
        simp [Set.ncard_eq_toFinset_card']

end LUT3D

end LARCmaCS
