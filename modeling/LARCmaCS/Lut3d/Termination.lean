import LARCmaCS.Lut3d.FloodFill

/-!
# Which fills end

The segment loop ends if what it writes does not pass its test again. With
some options it writes values that do: `terminatesFrom_iff` says for which options
and colors every fill ends.
-/

namespace LARCmaCS

open SeedFill (Span)

namespace LUT3D

-- ---------------------------------------------------------------------------
-- Options that make progress
-- ---------------------------------------------------------------------------

def Terminates (t : LUT3D) (slice_x origin_y origin_z : Nat) (new_color : LutMask)
    (mode : LUTChannelMode) (remove check_exact write_exclusive : Bool) : Prop :=
  ∃ rounds t', ∀ n, rounds ≤ n →
    t.maskFillYZ n slice_x origin_y origin_z new_color mode remove check_exact write_exclusive =
      some t'

def TerminatesFrom (old_color new_color : LutMask) (mode : LUTChannelMode)
    (remove check_exact write_exclusive : Bool) : Prop :=
  ∀ (t : LUT3D) (slice_x origin_y origin_z : Nat), slice_x ≤ t.getMaxX → origin_y ≤ t.getMaxY →
    origin_z ≤ t.getMaxZ → t.get_preshrunk slice_x origin_y origin_z = old_color →
    t.Terminates slice_x origin_y origin_z new_color mode remove check_exact write_exclusive

/-- The fill removes, sets exactly one value, or adds a bit that its test looks at. -/
def MakesProgress (old_color new_color : LutMask) (mode : LUTChannelMode)
    (remove check_exact write_exclusive : Bool) : Prop :=
  mode = .numeric ∨ remove = true ∨
    if check_exact then
      write_exclusive = true ∨ old_color ||| new_color ≠ old_color ∨ old_color = new_color
    else new_color ≠ 0

theorem and_not_and_self (v c : LutMask) : v &&& ~~~c &&& c = 0 := by
  rw [BitVec.and_assoc, BitVec.not_and_self]
  exact BitVec.and_zero

theorem or_and_self (v c : LutMask) : (v ||| c) &&& c = c := by
  rw [BitVec.and_or_distrib_right, BitVec.and_self]
  exact BitVec.eq_of_getElem_eq fun i hi => by simp

end LUT3D

namespace MaskFill

variable {f : MaskFill}

theorem stops_of_remove (hmode : f.mode = .bitwise) (hremove : f.remove = true)
    (hdone : f.done = false) : f.Stops := by
  intro v hv
  have htarget : f.target v = v &&& ~~~f.new_color := by simp [target, hremove, hmode]
  have hbits : f.old_color &&& f.new_color ≠ 0 := by simpa [done, hremove, hmode] using hdone
  rw [htarget]
  cases hexact : f.check_exact with
  | true =>
    simp only [fills, hexact, if_true, beq_iff_eq] at hv
    simp only [fills, hexact, if_true, hv, beq_eq_false_iff_ne]
    intro hsame
    rw [← hsame, LUT3D.and_not_and_self] at hbits
    exact hbits rfl
  | false => simp [fills, hexact, hremove, LUT3D.and_not_and_self]

theorem stops_of_numeric_remove (hmode : f.mode = .numeric) (hremove : f.remove = true)
    (hexact : f.check_exact = true) (hdone : f.done = false) : f.Stops := by
  intro v _
  have hne : f.old_color ≠ 0 := by simpa [done, hremove, hmode] using hdone
  simp only [fills, hexact, if_true, beq_eq_false_iff_ne, target, hremove, hmode]
  exact hne.symm

theorem stops_of_exact (hremove : f.remove = false) (hexact : f.check_exact = true)
    (hdone : f.done = false)
    (hwrite : f.write_exclusive = true ∨ f.old_color ||| f.new_color ≠ f.old_color) :
    f.Stops := by
  intro v hv
  have hne : f.old_color ≠ f.new_color := by simpa [done, hremove, hexact] using hdone
  simp only [fills, hexact, if_true, beq_iff_eq] at hv
  simp only [fills, hexact, if_true, beq_eq_false_iff_ne, target, hremove, hv]
  cases hexclusive : f.write_exclusive with
  | true => exact hne.symm
  | false =>
    rw [hexclusive] at hwrite
    exact hwrite.resolve_left Bool.false_ne_true

theorem stops_of_color (hremove : f.remove = false) (hexact : f.check_exact = false)
    (hcolor : f.new_color ≠ 0) : f.Stops := by
  intro v _
  cases hexclusive : f.write_exclusive with
  | true => simpa [fills, target, hremove, hexact, hexclusive] using hcolor
  | false => simpa [fills, target, hremove, hexact, hexclusive, LUT3D.or_and_self] using hcolor

end MaskFill

namespace LUT3D

section Options

variable {t : LUT3D} {slice_x origin_y origin_z : Nat} {new_color : LutMask}
  {mode : LUTChannelMode} {remove check_exact write_exclusive : Bool}

theorem done_or_stops
    (h : MakesProgress (t.get_preshrunk slice_x origin_y origin_z) new_color mode remove check_exact
      write_exclusive) :
    (t.maskFill slice_x origin_y origin_z new_color mode remove check_exact
        write_exclusive).done = true ∨
      (t.maskFill slice_x origin_y origin_z new_color mode remove check_exact
        write_exclusive).Stops := by
  refine or_iff_not_imp_left.mpr fun hdone => ?_
  have hdone := Bool.eq_false_iff.mpr hdone
  cases mode with
  | numeric =>
    cases remove with
    | true => exact MaskFill.stops_of_numeric_remove rfl rfl rfl hdone
    | false => exact MaskFill.stops_of_exact rfl rfl hdone (.inl rfl)
  | bitwise =>
    cases remove with
    | true => exact MaskFill.stops_of_remove rfl rfl hdone
    | false =>
      have hprogress := (h.resolve_left LUTChannelMode.noConfusion).resolve_left Bool.false_ne_true
      cases check_exact with
      | true =>
        refine MaskFill.stops_of_exact rfl rfl hdone ?_
        rcases hprogress with hexclusive | hbits | hsame
        · exact .inl hexclusive
        · exact .inr hbits
        · simp [MaskFill.done, maskFill, hsame] at hdone
      | false => exact MaskFill.stops_of_color rfl rfl hprogress

theorem terminates_of_progress (hy : origin_y ≤ t.getMaxY) (hz : origin_z ≤ t.getMaxZ)
    (h : MakesProgress (t.get_preshrunk slice_x origin_y origin_z) new_color mode remove check_exact
      write_exclusive) :
    t.Terminates slice_x origin_y origin_z new_color mode remove check_exact write_exclusive := by
  unfold Terminates maskFillYZ
  rcases done_or_stops h with hdone | hstops
  · exact ⟨0, t, fun n _ => if_pos hdone⟩
  · obtain ⟨rounds, t', hloop, -⟩ := MaskFill.fillLoop_run (P := fun _ _ => True) hstops
      (fun _ _ _ _ _ _ _ => trivial) trivial
      (MaskFill.fits_seeds (show 2 ≤ LUTFILL_MAXDEPTH by decide) hy hz)
    by_cases hdone : (t.maskFill slice_x origin_y origin_z new_color mode remove check_exact
        write_exclusive).done = true
    · exact ⟨0, t, fun n _ => if_pos hdone⟩
    · refine ⟨rounds, t', fun n hn => ?_⟩
      simp only [if_neg hdone]
      rw [if_neg (by omega)]
      exact hloop n hn

end Options

end LUT3D

-- ---------------------------------------------------------------------------
-- Fills without progress
-- ---------------------------------------------------------------------------

namespace MaskFill

/-- What the fill writes, it fills again. -/
def Repeats (f : MaskFill) : Prop := ∀ v, f.fills v = true → f.fills (f.target v) = true

/-- A slice of two rows and two columns, with nothing that stops the fill. -/
structure Full (f : MaskFill) (t : LUT3D) : Prop where
  maxY : t.getMaxY = 1
  maxZ : t.getMaxZ = 1
  fills : ∀ i, f.fills (t.LUT i) = true

section Full

variable {f : MaskFill} {t : LUT3D} {depth : Nat} {s : Span} {rest : List Span}

theorem Full.test (h : f.Full t) (x : Nat) (y : Int) : f.test t x y = true := h.fills _

theorem Full.write (h : f.Full t) (hrepeats : f.Repeats) (x : Nat) (y : Int) :
    f.Full (f.write t x y) := by
  refine ⟨h.maxY, h.maxZ, fun i => ?_⟩
  rw [MaskFill.write, LUT3D.set_preshrunk]
  rcases eq_or_ne i (t.preshrunk f.slice_x x y) with rfl | hi
  · simp only [Function.update_self]
    exact hrepeats _ (h.fills _)
  · simp only [Function.update_of_ne hi]
    exact h.fills i

theorem Full.fillLeft (h : f.Full t) (hrepeats : f.Repeats) (y : Int) (n : Nat) :
    ∃ t', f.fillLeft y n t = (0, t') ∧ f.Full t' := by
  induction n generalizing t with
  | zero => exact ⟨t, rfl, h⟩
  | succ n ih =>
    obtain ⟨t', hfill, ht'⟩ := ih (h.write hrepeats n y)
    exact ⟨t', by rw [MaskFill.fillLeft, if_pos (h.test n y), hfill], ht'⟩

theorem Full.fillRight (h : f.Full t) (hrepeats : f.Repeats) (y : Int) (n x : Nat) :
    ∃ t', f.fillRight y n x t = (x + n, t') ∧ f.Full t' := by
  induction n generalizing x t with
  | zero => exact ⟨t, rfl, h⟩
  | succ n ih =>
    obtain ⟨t', hfill, ht'⟩ := ih (h.write hrepeats x y) (x + 1)
    refine ⟨t', ?_, ht'⟩
    rw [MaskFill.fillRight, if_pos (h.test x y), hfill, Nat.add_right_comm]
    rfl

theorem Full.fillRuns (h : f.Full t) (hrepeats : f.Repeats) {x x2 : Nat} (hx : x ≤ 2)
    (hx2 : x2 ≤ 1) (depth : Nat) (y dy : Int) (n left : Nat) (stack : List Span) :
    ∃ t', f.Full t' ∧ f.fillRuns depth x2 y dy (n + 1) x left t stack =
      some (t', if 2 > x2 + 1 then
        LUTFILL_PUSH depth 1 (LUTFILL_PUSH depth 1 stack ⟨left, 1, y, dy⟩) ⟨x2 + 1, 1, y, -dy⟩
      else LUTFILL_PUSH depth 1 stack ⟨left, 1, y, dy⟩) := by
  obtain ⟨t', hfill, ht'⟩ := h.fillRight hrepeats y (t.getMaxY + 1 - x) x
  have hend : x + (t.getMaxY + 1 - x) = 2 := by
    have := h.maxY
    omega
  have hskip : x2 - 2 = 0 := by omega
  refine ⟨t', ht', ?_⟩
  rw [MaskFill.fillRuns, hfill, hend]
  simp only [hskip, skip, ht'.maxZ]
  rw [if_neg (by omega)]

/-- The span that comes down over the first column sends one back over the second. -/
theorem Full.fillSegment_down (h : f.Full t) (hrepeats : f.Repeats) (hrest : rest.length < depth) :
    ∃ t', f.Full t' ∧
      f.fillSegment depth ⟨0, 0, 1, -1⟩ t rest = some (t', ⟨1, 1, 0, 1⟩ :: rest) := by
  obtain ⟨t', hleft, ht'⟩ := h.fillLeft hrepeats (1 + -1) (0 + 1)
  obtain ⟨t'', ht'', hruns⟩ :=
    ht'.fillRuns hrepeats (show 1 ≤ 2 by decide) (show 0 ≤ 1 by decide) depth (1 + -1) (-1) 1 0 rest
  have honward : LUTFILL_PUSH depth 1 rest ⟨0, 1, 1 + -1, -1⟩ = rest :=
    if_neg fun hpush => absurd hpush.2.1 (by decide)
  have hback : LUTFILL_PUSH depth 1 rest ⟨0 + 1, 1, 1 + -1, - -1⟩ = ⟨1, 1, 0, 1⟩ :: rest :=
    if_pos ⟨hrest, by decide, by decide⟩
  refine ⟨t'', ht'', ?_⟩
  rw [if_pos (by decide), honward, hback] at hruns
  rw [fillSegment]
  simp only [hleft]
  rw [if_neg (by decide), if_neg (by decide)]
  exact hruns

theorem Full.fillSegment_up (h : f.Full t) (hrepeats : f.Repeats) (hrest : rest.length < depth) :
    ∃ t', f.Full t' ∧
      f.fillSegment depth ⟨1, 1, 0, 1⟩ t rest = some (t', ⟨0, 0, 1, -1⟩ :: rest) := by
  obtain ⟨t', hleft, ht'⟩ := h.fillLeft hrepeats (0 + 1) (1 + 1)
  have hback : LUTFILL_PUSH depth 1 rest ⟨0, 1 - 1, 0 + 1, -1⟩ = ⟨0, 0, 1, -1⟩ :: rest :=
    if_pos ⟨hrest, by decide, by decide⟩
  obtain ⟨t'', ht'', hruns⟩ :=
    ht'.fillRuns hrepeats (show 2 ≤ 2 by decide) (show 1 ≤ 1 by decide) depth (0 + 1) 1 2 0
      (⟨0, 0, 1, -1⟩ :: rest)
  have honward : LUTFILL_PUSH depth 1 (⟨0, 0, 1, -1⟩ :: rest) ⟨0, 1, 0 + 1, 1⟩ =
      ⟨0, 0, 1, -1⟩ :: rest := if_neg fun hpush => absurd hpush.2.2 (by decide)
  refine ⟨t'', ht'', ?_⟩
  rw [if_neg (by decide), honward] at hruns
  rw [fillSegment]
  simp only [hleft, ht'.maxZ, hback]
  rw [if_neg (by decide), if_pos (by decide)]
  exact hruns

/-- The two spans take turns for ever. -/
theorem Full.fillLoop_eq_none (h : f.Full t) (hrepeats : f.Repeats) (hrest : rest.length < depth)
    (hs : s = ⟨0, 0, 1, -1⟩ ∨ s = ⟨1, 1, 0, 1⟩) (n : Nat) :
    f.fillLoop depth n t (s :: rest) = none := by
  induction n generalizing t s with
  | zero => rfl
  | succ n ih =>
    rcases hs with rfl | rfl
    · obtain ⟨t', ht', hsegment⟩ := h.fillSegment_down hrepeats hrest
      rw [fillLoop, hsegment]
      exact ih ht' (.inr rfl)
    · obtain ⟨t', ht', hsegment⟩ := h.fillSegment_up hrepeats hrest
      rw [fillLoop, hsegment]
      exact ih ht' (.inl rfl)

end Full

end MaskFill

namespace LUT3D

def uniform (v : LutMask) : LUT3D := ⟨1, 1, 1, by decide, by decide, by decide, fun _ => v⟩

theorem not_terminates_uniform {old_color new_color : LutMask} {check_exact write_exclusive : Bool}
    (h : ¬ MakesProgress old_color new_color .bitwise false check_exact write_exclusive) :
    ¬ (uniform old_color).Terminates 0 0 0 new_color .bitwise false check_exact
      write_exclusive := by
  let f : MaskFill := ⟨0, old_color, new_color, .bitwise, false, check_exact, write_exclusive⟩
  suffices f.done = false ∧ f.Repeats ∧ f.fills old_color = true by
    obtain ⟨hdone, hrepeats, hfills⟩ := this
    have hfull : f.Full (uniform old_color) := ⟨rfl, rfl, fun _ => hfills⟩
    have hseeds : (uniform old_color).seeds LUTFILL_MAXDEPTH 0 0 =
        [⟨0, 0, 1, -1⟩, ⟨0, 0, 0, 1⟩] :=
      MaskFill.seeds_eq (by decide) (Nat.zero_le _)
    rintro ⟨rounds, t', hend⟩
    have hfill := hend rounds (Nat.le_refl rounds)
    rw [maskFillYZ] at hfill
    simp only [show (uniform old_color).maskFill 0 0 0 new_color .bitwise false check_exact
      write_exclusive = f from rfl, hdone] at hfill
    rw [if_neg Bool.false_ne_true, if_neg (by simp [hfull.maxY, hfull.maxZ]), hseeds,
      hfull.fillLoop_eq_none hrepeats (by decide) (.inl rfl)] at hfill
    cases hfill
  unfold MakesProgress at h
  cases check_exact with
  | true =>
    simp only [if_true, not_or, not_not, reduceCtorEq, Bool.false_eq_true, not_false_eq_true,
      true_and, Bool.not_eq_true] at h
    obtain ⟨rfl, hbits, hne⟩ := h
    refine ⟨by simpa [f, MaskFill.done] using hne, fun v hv => ?_, by simp [f, MaskFill.fills]⟩
    have hv : v = old_color := by simpa [f, MaskFill.fills] using hv
    simpa [f, MaskFill.fills, MaskFill.target, hv] using hbits
  | false =>
    have hzero : new_color = 0 := by simpa using h
    have hfills (v : LutMask) : f.fills v = true := by simp [f, MaskFill.fills, hzero]
    exact ⟨by simp [f, MaskFill.done, hzero], fun v _ => hfills _, hfills _⟩

/-- Every fill from an origin of value `old_color` ends if and only if the
options and the colors make progress. -/
theorem terminatesFrom_iff (old_color new_color : LutMask) (mode : LUTChannelMode)
    (remove check_exact write_exclusive : Bool) :
    TerminatesFrom old_color new_color mode remove check_exact write_exclusive ↔
      MakesProgress old_color new_color mode remove check_exact write_exclusive := by
  constructor
  · intro h
    by_contra hprogress
    have hmode : mode = .bitwise := by
      cases mode with
      | numeric => exact absurd (.inl rfl) hprogress
      | bitwise => rfl
    have hremove : remove = false := by
      cases remove with
      | true => exact absurd (.inr (.inl rfl)) hprogress
      | false => rfl
    subst hmode hremove
    exact not_terminates_uniform hprogress
      (h (uniform old_color) 0 0 0 (Nat.zero_le _) (Nat.zero_le _) (Nat.zero_le _) rfl)
  · rintro h t slice_x origin_y origin_z - hy hz rfl
    exact terminates_of_progress hy hz h

/-- With the default options, from an origin that has the new color and one more. -/
theorem not_terminates_default :
    ¬ (uniform 3).Terminates 0 0 0 1 .bitwise false true false := by
  refine not_terminates_uniform ?_
  rintro (h | h | h | h | h)
  all_goals revert h; decide

end LUT3D

end LARCmaCS
