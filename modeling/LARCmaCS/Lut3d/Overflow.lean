import LARCmaCS.Lut3d.FloodFill

/-!
# A fill that runs out of stack

A slice of 256 by 256 cells in which full rows and combs alternate. Going from
the last row down, every comb leaves its teeth on the stack; in the 79th comb
the stack is full, the segment for the row behind it is dropped, and the fill
ends with most of the region untouched.
-/

namespace LARCmaCS

open SeedFill

namespace MaskFill

section Rows

variable {f : MaskFill} {t : LUT3D} {s : Span}

structure Pushes (f : MaskFill) (s : Span) (t t' : LUT3D) (pushed : List Span) : Prop where
  old : f.old t' = s.swept (f.old t)
  getMaxY : t'.getMaxY = t.getMaxY
  getMaxZ : t'.getMaxZ = t.getMaxZ
  segment : ∀ depth stack, f.fillSegment depth s t stack =
    some (t', pushed.foldl (LUTFILL_PUSH depth t.getMaxZ) stack)

theorem Pushes.of_segment (hstops : f.Stops) (hs : Fits t s) {t' : LUT3D} {pushed : List Span}
    (h : ∀ depth stack, f.fillSegment depth s t stack =
      some (t', pushed.foldl (LUTFILL_PUSH depth t.getMaxZ) stack)) : Pushes f s t t' pushed := by
  obtain ⟨t₁, pushed₁, hrounds⟩ := exists_round hstops hs
  have heq := (h 0 []).symm.trans (hrounds.segment 0 [])
  obtain rfl : t' = t₁ := congrArg Prod.fst (Option.some.inj heq)
  exact ⟨hrounds.old, hrounds.painted.getMaxY, hrounds.painted.getMaxZ, h⟩

theorem fillSegment_full (hstops : f.Stops) (hs : Fits t s)
    (hfull : ∀ c ≤ t.getMaxY, (c, s.row) ∈ f.old t) :
    ∃ t', Pushes f s t t' (leakLeft s 0 ++ roundPushes s.row s.dy s.xr 0 (t.getMaxY + 1)) := by
  have hfits := hs
  obtain ⟨hle, hwidth, hlow, hhigh⟩ := hs
  obtain ⟨left, t1, hfill, hleft, hpainted, hsub, hend⟩ :=
    fillLeft_spec hstops hlow (s.xl + 1) t hhigh (by omega)
  obtain rfl : left = 0 := by
    refine hend.resolve_right fun hclear => hclear (hfull (left - 1) (by omega))
  have hmaxY := hpainted.getMaxY
  have hmaxZ := hpainted.getMaxZ
  obtain ⟨e, t2, hfill', hle', hle'', hpainted', hsub', hend'⟩ :=
    fillRight_spec hstops hlow (t1.getMaxY + 1 - (s.xl + 1)) (s.xl + 1) t1 (by rwa [hmaxZ])
      (by omega)
  have hlast : e = t.getMaxY + 1 := by
    rcases hend' with hend' | hend'
    · omega
    · refine Nat.le_antisymm (by omega) (Nat.le_of_not_lt fun hlt => hend' ?_)
      exact (hpainted.old_beyond hstops hsub (by omega)).mpr (hfull e (by omega))
  subst hlast
  refine ⟨t2, .of_segment hstops hfits fun depth stack => ?_⟩
  have hskip : s.xr - (t.getMaxY + 1) = 0 := by omega
  rw [Span.row] at hfill hfill'
  rw [List.foldl_append, leakLeft_foldl, roundPushes_foldl, Span.row]
  simp only [fillSegment, hfill, fillRuns, hfill', hskip, skip, hpainted'.getMaxZ, hmaxZ]
  rw [if_neg (Nat.not_lt_zero _), if_neg (by omega)]

def tooth (y dy : Int) (i : Nat) : Span := ⟨2 * i + 1, 2 * i + 1, y, dy⟩

theorem fillRuns_comb (hstops : f.Stops) {y : Int} (hy : 0 ≤ y) (dy : Int) {n : Nat} (m i : Nat)
    (t : LUT3D) (hy' : y ≤ t.getMaxZ) (hn : 2 * n = t.getMaxY + 1) (hi : i + m = n) (hm : 0 < m)
    (hcomb : ∀ c, 2 * i + 1 ≤ c → c ≤ t.getMaxY → ((c, y) ∈ f.old t ↔ c % 2 = 1)) (fuel : Nat)
    (hfuel : m ≤ fuel) :
    ∃ t', ∀ depth stack,
      f.fillRuns depth t.getMaxY y dy fuel (2 * i + 1) (2 * i + 1) t stack =
        some (t', ((List.range' i m).map (tooth y dy)).foldl (LUTFILL_PUSH depth t.getMaxZ) stack) := by
  induction m generalizing i t fuel with
  | zero => omega
  | succ m ih =>
    obtain ⟨fuel, rfl⟩ : ∃ k, fuel = k + 1 := ⟨fuel - 1, by omega⟩
    obtain ⟨e, t1, hfill, hle, hle', hpainted, hsub, hend⟩ :=
      fillRight_spec hstops hy (t.getMaxY + 1 - (2 * i + 1)) (2 * i + 1) t hy' (by omega)
    have hlast : e = 2 * i + 2 := by
      have hold := (hcomb (2 * i + 1) (Nat.le_refl _) (by omega)).mpr (by omega)
      have hge : 2 * i + 1 ≠ e := by
        rintro rfl
        exact hend.elim (by omega) fun hclear => hclear hold
      refine Nat.le_antisymm (Nat.le_of_not_lt fun hlt => ?_) (by omega)
      have hgap : (2 * i + 2, y) ∈ f.old t := hsub ⟨rfl, by simp only; omega, hlt⟩
      have hodd := (hcomb (2 * i + 2) (by omega) (by omega)).mp hgap
      omega
    subst hlast
    have hmaxY := hpainted.getMaxY
    have hmaxZ := hpainted.getMaxZ
    have hpush : roundPushes y dy t.getMaxY (2 * i + 1) (2 * i + 2) = [tooth y dy i] :=
      if_neg (by omega)
    have hstep := fillRuns_succ fuel dy t.getMaxY (2 * i + 1) hfill hmaxZ
    simp only [hpush, List.foldl_cons, List.foldl_nil] at hstep
    have hcolumn : 2 * i + 2 + 1 = 2 * (i + 1) + 1 := by omega
    simp only [hcolumn] at hstep
    rcases Nat.eq_zero_or_pos m with rfl | hpos
    · refine ⟨t1, fun depth stack => ?_⟩
      have hskip : t.getMaxY - (2 * i + 2) = 0 := by omega
      rw [hstep, hskip, skip, if_neg (by omega)]
      rfl
    · have hold1 {c : Nat} (hc : 2 * i + 2 ≤ c) := hpainted.old_beyond hstops hsub hc
      have hnext : f.skip y t1 (t.getMaxY - (2 * i + 2)) (2 * (i + 1) + 1) = 2 * (i + 1) + 1 := by
        obtain ⟨hgap, -, hclear, -⟩ := skip_spec (f := f) (t := t1) hy (by rwa [hmaxZ])
          (t.getMaxY - (2 * i + 2)) (2 * (i + 1) + 1) (by omega)
        refine Nat.le_antisymm (Nat.le_of_not_lt fun hlt => ?_) hgap
        refine hclear (2 * (i + 1) + 1) (Nat.le_refl _) hlt ((hold1 (by omega)).mpr ?_)
        exact (hcomb _ (by omega) (by omega)).mpr (by omega)
      obtain ⟨t', hruns⟩ := ih (i + 1) t1 (by rwa [hmaxZ]) (by rwa [hmaxY]) (by omega) hpos
        (fun c hc hc' => (hold1 (by omega)).trans (hcomb c (by omega) (by omega))) fuel (by omega)
      refine ⟨t', fun depth stack => ?_⟩
      rw [hmaxY, hmaxZ] at hruns
      rw [hstep, hnext, if_pos (by omega), hruns, List.range'_succ, List.map_cons, List.foldl_cons]

theorem fillSegment_comb (hstops : f.Stops) (hs : Fits t s) {n : Nat} (hn : 2 * n = t.getMaxY + 1)
    (hl : s.xl = 0) (hr : s.xr = t.getMaxY)
    (hcomb : ∀ c ≤ t.getMaxY, (c, s.row) ∈ f.old t ↔ c % 2 = 1) :
    ∃ t', Pushes f s t t' ((List.range n).map (tooth s.row s.dy)) := by
  have hfits := hs
  obtain ⟨hle, hwidth, hlow, hhigh⟩ := hs
  obtain ⟨t1, hruns⟩ := fillRuns_comb hstops hlow s.dy n 0 t hhigh hn (by omega) (by omega)
    (fun c _ hc => hcomb c hc) (s.xr + 2) (by omega)
  refine ⟨t1, .of_segment hstops hfits fun depth stack => ?_⟩
  have hclear : f.test t 0 s.row = false := by
    rw [← Bool.not_eq_true, ← mem_old_iff (Nat.zero_le _) hlow hhigh, hcomb 0 (Nat.zero_le _)]
    decide
  have hfill : f.fillLeft s.row (0 + 1) t = (0 + 1, t) := by
    rw [fillLeft, hclear]
    rfl
  have hskip : f.skip s.row t (t.getMaxY - 0) (0 + 1) = 1 := by
    obtain ⟨hgap, -, hgapclear, -⟩ :=
      skip_spec (f := f) (t := t) hlow hhigh (t.getMaxY - 0) (0 + 1) (by omega)
    refine Nat.le_antisymm (Nat.le_of_not_lt fun hlt => ?_) hgap
    exact hgapclear 1 (Nat.le_refl 1) hlt ((hcomb 1 (by omega)).mpr rfl)
  have hruns := hruns depth stack
  rw [← List.range_eq_range'] at hruns
  rw [Span.row] at hfill hskip hruns ⊢
  simp only [fillSegment, hl, hr, hfill, hskip]
  rw [if_pos (by omega), if_pos (by omega), ← hruns, hr]

end Rows

-- ---------------------------------------------------------------------------
-- Stacks with room and without
-- ---------------------------------------------------------------------------

theorem pushes_all {depth maxZ : Nat} (stack : List Span) {pushed : List Span}
    (hrange : ∀ q ∈ pushed, InRange maxZ q) (hroom : stack.length + pushed.length ≤ depth) :
    pushed.foldl (LUTFILL_PUSH depth maxZ) stack = pushed.reverse ++ stack := by
  have hfilter : pushed.filter (InRange maxZ) = pushed :=
    List.filter_eq_self.mpr fun q hq => decide_eq_true (hrange q hq)
  rw [pushes_of_room (by rwa [hfilter]), hfilter]

theorem pushes_full {depth maxZ : Nat} {stack : List Span} (hfull : depth ≤ stack.length)
    (pushed : List Span) : pushed.foldl (LUTFILL_PUSH depth maxZ) stack = stack := by
  induction pushed with
  | nil => rfl
  | cons q pushed ih =>
    have hpush : LUTFILL_PUSH depth maxZ stack q = stack := if_neg fun h => by omega
    rw [List.foldl_cons, hpush, ih]

end MaskFill

-- ---------------------------------------------------------------------------
-- Combs
-- ---------------------------------------------------------------------------

/-- The odd rows of the slice are full; the even ones have every other cell. -/
def combTable : LUT3D where
  X_BITS := 0
  Y_BITS := 8
  Z_BITS := 8
  x_bits_le := by decide
  y_bits_le := by decide
  z_bits_le := by decide
  LUT i := if i % 2 = 1 ∨ i / 256 % 2 = 1 then 1 else 0

def combFill : MaskFill := combTable.maskFill 0 0 255 2 .numeric false false false

open MaskFill

theorem combFill_fills (v : LutMask) : combFill.fills v = true ↔ v = 1 := by
  have hold : combFill.old_color = 1 := rfl
  simp [MaskFill.fills, combFill, LUT3D.maskFill] at hold ⊢
  rw [hold]

theorem combFill_stops : combFill.Stops := by
  intro v _
  rfl

theorem combTable_old (c : Nat) (r : Int) :
    (c, r) ∈ combFill.old combTable ↔
      c ≤ 255 ∧ 0 ≤ r ∧ r < 256 ∧ (c % 2 = 1 ∨ r % 2 = 1) := by
  have hmaxY : combTable.getMaxY = 255 := rfl
  have hmaxZ : combTable.getMaxZ = 255 := rfl
  have hgrid : (c, r) ∈ combTable.Grid ↔ c ≤ 255 ∧ 0 ≤ r ∧ r < 256 := by
    simp only [LUT3D.Grid, Set.mem_ofPred_eq, hmaxY, hmaxZ]
    omega
  have hvalue (hc : c ≤ 255) (hr : 0 ≤ r) (hr' : r < 256) :
      combFill.fills (combFill.value combTable (c, r)) = true ↔ c % 2 = 1 ∨ r % 2 = 1 := by
    lift r to Nat using hr
    have hindex : combTable.preshrunk 0 c r = c * 256 + r := by
      have heq := combTable.preshrunk_eq 0 (y := c) (z := r) (by omega) (by omega)
      have huchar : LUT3D.uchar 0 = 0 := rfl
      simpa [huchar, combTable] using heq
    have hLUT : combFill.value combTable (c, (r : Int)) = combTable.LUT (c * 256 + r) :=
      congrArg combTable.LUT hindex
    have hodd : ((c * 256 + r) % 2 = 1 ∨ (c * 256 + r) / 256 % 2 = 1) ↔
        c % 2 = 1 ∨ (r : Int) % 2 = 1 := by omega
    rw [combFill_fills, hLUT, ← hodd]
    exact ⟨fun h => Classical.not_not.mp fun hne => absurd ((if_neg hne).symm.trans h) (by decide),
      fun h => if_pos h⟩
  constructor
  · rintro ⟨hmem, hfills⟩
    obtain ⟨hc, hr, hr'⟩ := hgrid.mp hmem
    exact ⟨hc, hr, hr', (hvalue hc hr hr').mp hfills⟩
  · rintro ⟨hc, hr, hr', hodd⟩
    exact ⟨hgrid.mpr ⟨hc, hr, hr'⟩, (hvalue hc hr hr').mpr hodd⟩

-- ---------------------------------------------------------------------------
-- The descent
-- ---------------------------------------------------------------------------

/-- The rows from `z` on are filled, those before it are as they were. -/
structure Untouched (t : LUT3D) (z : Int) : Prop where
  maxY : t.getMaxY = 255
  maxZ : t.getMaxZ = 255
  old : ∀ c r, (c, r) ∈ combFill.old t ↔ c ≤ 255 ∧ 0 ≤ r ∧ r < z ∧ (c % 2 = 1 ∨ r % 2 = 1)

structure Spent (z : Int) (q : Span) : Prop where
  le : q.xl ≤ q.xr
  width : q.xr ≤ 255
  low : 0 ≤ q.row
  high : q.row ≤ 255
  spent : z ≤ q.row

theorem Spent.mono {z z' : Int} {q : Span} (h : Spent z q) (hz : z' ≤ z) : Spent z' q :=
  ⟨h.le, h.width, h.low, h.high, Int.le_trans hz h.spent⟩

theorem Untouched.next {t t' : LUT3D} {z : Int} {s : Span} {pushed : List Span}
    (h : Untouched t z) (hpushes : Pushes combFill s t t' pushed) (hrow : s.row = z - 1)
    (hhit : ∀ c, (c, s.row) ∈ combFill.old t → s.Hit (combFill.old t) c) : Untouched t' (z - 1) := by
  refine ⟨by rw [hpushes.getMaxY, h.maxY], by rw [hpushes.getMaxZ, h.maxZ], fun c r => ?_⟩
  rw [hpushes.old]
  constructor
  · rintro ⟨hold, hswept⟩
    have hne : r ≠ s.row := by
      rintro rfl
      exact hswept ⟨rfl, hhit c hold⟩
    have hold := (h.old c r).mp hold
    exact ⟨hold.1, hold.2.1, by omega, hold.2.2.2⟩
  · rintro ⟨hc, hr, hr', hodd⟩
    refine ⟨(h.old c r).mpr ⟨hc, hr, by omega, hodd⟩, fun hswept => ?_⟩
    have := hswept.1
    simp only at this
    omega

theorem Untouched.fits {t : LUT3D} {z : Int} (h : Untouched t z) {s : Span} (hle : s.xl ≤ s.xr)
    (hwidth : s.xr ≤ 255) (hrow : s.row = z - 1) (hz : 0 < z) (hz' : z ≤ 256) : Fits t s := by
  refine ⟨hle, by rwa [h.maxY], by omega, ?_⟩
  rw [h.maxZ]
  omega

theorem Untouched.full {t : LUT3D} {z : Int} (h : Untouched t z) {s : Span} (hle : s.xl ≤ s.xr)
    (hwidth : s.xr ≤ 255) (hrow : s.row = z - 1) (hz : 0 < z) (hz' : z ≤ 256) (hodd : z % 2 = 0) :
    ∃ t', Untouched t' (z - 1) ∧
      Pushes combFill s t t' (leakLeft s 0 ++ roundPushes s.row s.dy s.xr 0 256) := by
  have hfull : ∀ c ≤ 255, (c, s.row) ∈ combFill.old t := fun c hc =>
    (h.old c s.row).mpr ⟨hc, by omega, by omega, .inr (by omega)⟩
  obtain ⟨t', hpushes⟩ := fillSegment_full combFill_stops (h.fits hle hwidth hrow hz hz')
    (by rw [h.maxY]; exact hfull)
  rw [h.maxY] at hpushes
  refine ⟨t', h.next hpushes hrow fun c hold k hk hk' => hfull k ?_, hpushes⟩
  have := ((h.old c s.row).mp hold).1
  omega

theorem Untouched.comb {t : LUT3D} {z : Int} (h : Untouched t z) {y : Int} (hy : y = z) (hz : 0 < z)
    (hz' : z ≤ 256) (hodd : z % 2 = 1) :
    ∃ t', Untouched t' (z - 1) ∧
      Pushes combFill ⟨0, 255, y, -1⟩ t t' ((List.range 128).map (tooth (z - 1) (-1))) := by
  have hrow : Span.row ⟨0, 255, y, -1⟩ = z - 1 := by
    simp only [Span.row]
    omega
  have hcomb : ∀ c ≤ 255, (c, z - 1) ∈ combFill.old t ↔ c % 2 = 1 := by
    intro c hc
    rw [h.old]
    omega
  obtain ⟨t', hpushes⟩ := fillSegment_comb combFill_stops
    (h.fits (s := ⟨0, 255, y, -1⟩) (Nat.zero_le _) (Nat.le_refl _) hrow hz hz') (n := 128)
    (by rw [h.maxY]) rfl h.maxY.symm (by rw [h.maxY, hrow]; exact hcomb)
  rw [hrow] at hpushes
  refine ⟨t', h.next hpushes hrow fun c hold k hk hk' => ?_, hpushes⟩
  have hc := ((h.old c _).mp hold).1
  obtain rfl : k = c := by
    simp only at hk hk'
    omega
  exact hold

theorem fillLoop_pushes {f : MaskFill} {s : Span} {t t' : LUT3D} {pushed : List Span}
    (h : Pushes f s t t' pushed) (depth m : Nat) (stack : List Span) :
    f.fillLoop depth (m + 1) t (s :: stack) =
      f.fillLoop depth m t' (pushed.foldl (LUTFILL_PUSH depth t.getMaxZ) stack) := by
  simp only [fillLoop, h.segment, Option.bind_eq_bind, Option.bind_some]

def Reaches (rounds : Nat) (t : LUT3D) (stack : List Span) : Prop :=
  ∀ m, combFill.fillLoop LUTFILL_MAXDEPTH (m + rounds) combTable
    (combTable.seeds LUTFILL_MAXDEPTH 0 255) = combFill.fillLoop LUTFILL_MAXDEPTH m t stack

theorem Reaches.pushes {rounds : Nat} {t t' : LUT3D} {s : Span} {stack pushed : List Span}
    (h : Reaches rounds t (s :: stack)) (hpushes : Pushes combFill s t t' pushed)
    (hmaxZ : t.getMaxZ = 255) :
    Reaches (rounds + 1) t' (pushed.foldl (LUTFILL_PUSH LUTFILL_MAXDEPTH 255) stack) := by
  intro m
  rw [← Nat.add_assoc, Nat.add_right_comm, h, fillLoop_pushes hpushes, hmaxZ]

/-- The fill has come down to row `z` and asks for the comb before it. -/
structure Descent (rounds : Nat) (z : Int) (t : LUT3D) (stack : List Span) : Prop where
  reaches : Reaches rounds t (⟨0, 255, z, -1⟩ :: stack)
  table : Untouched t z
  spent : ∀ q ∈ stack, Spent z q

theorem descent_first : ∃ t, Descent 1 255 t [] := by
  have hstart : Untouched combTable 256 := ⟨rfl, rfl, combTable_old⟩
  have hseeds : combTable.seeds LUTFILL_MAXDEPTH 0 255 = [⟨0, 0, 256, -1⟩] := by decide
  obtain ⟨t, htable, hpushes⟩ := hstart.full (s := ⟨0, 0, 256, -1⟩) (Nat.le_refl 0) (by decide)
    (by decide) (by decide) (by decide) (by decide)
  have hreaches : Reaches 0 combTable [⟨0, 0, 256, -1⟩] := fun m => by rw [hseeds]; rfl
  refine ⟨t, ?_, htable, by simp⟩
  exact hreaches.pushes hpushes rfl

section Descent

variable {rounds a : Nat} {z : Int} {t : LUT3D} {stack : List Span}

theorem tooth_spent (hz : 2 ≤ z) (hz' : z ≤ 255) {i : Nat} (hi : i < 128) :
    Spent (z - 2) (tooth (z - 1) (-1) i) := by
  refine ⟨Nat.le_refl _, ?_, ?_, ?_, ?_⟩ <;> simp only [tooth, Span.row] <;> omega

theorem teeth_spent (hz : 2 ≤ z) (hz' : z ≤ 255) (ha : a ≤ 128) :
    ∀ q ∈ (List.range a).map (tooth (z - 1) (-1)), Spent (z - 2) q := by
  intro q hq
  obtain ⟨i, hi, rfl⟩ := List.mem_map.mp hq
  exact tooth_spent hz hz' (by have := List.mem_range.mp hi; omega)

/-- The leak of a tooth, the teeth before it and the stack below them are spent. -/
theorem Descent.spent_pushed (h : Descent rounds z t stack) (hz : 2 ≤ z) (hz' : z ≤ 255)
    (ha : a ≤ 128) {xr : Nat} (hxr : xr ≤ 255) :
    ∀ q ∈ ⟨0, xr, z - 2, 1⟩ :: (((List.range a).map (tooth (z - 1) (-1))).reverse ++ stack),
      Spent (z - 2) q := by
  intro q hq
  rcases List.mem_cons.mp hq with rfl | hq
  · refine ⟨Nat.zero_le _, hxr, ?_, ?_, ?_⟩ <;> simp only [Span.row] <;> omega
  · rcases List.mem_append.mp hq with hq | hq
    · exact teeth_spent hz hz' ha q (List.mem_reverse.mp hq)
    · exact (h.spent q hq).mono (by omega)

/-- The comb, of which the first `a + 1` teeth are pushed, and the full row
behind the last of these. -/
theorem Descent.rows (h : Descent rounds z t stack) (hz : 2 ≤ z) (hz' : z ≤ 255)
    (hodd : z % 2 = 1) (ha : a < 128)
    (hteeth : ((List.range 128).map (tooth (z - 1) (-1))).foldl
        (LUTFILL_PUSH LUTFILL_MAXDEPTH 255) stack =
      ((List.range (a + 1)).map (tooth (z - 1) (-1))).reverse ++ stack) :
    ∃ t', Untouched t' (z - 2) ∧ Reaches (rounds + 2) t'
      ((⟨0, 2 * a, z - 2, 1⟩ :: roundPushes (z - 2) (-1) (2 * a + 1) 0 256).foldl
        (LUTFILL_PUSH LUTFILL_MAXDEPTH 255)
        (((List.range a).map (tooth (z - 1) (-1))).reverse ++ stack)) := by
  obtain ⟨t₁, htable₁, hpushes₁⟩ := h.table.comb (y := z) rfl (by omega) (by omega) hodd
  have hreaches₁ := h.reaches.pushes hpushes₁ h.table.maxZ
  rw [hteeth, List.range_succ, List.map_append, List.map_singleton, List.reverse_append,
    List.reverse_singleton, List.singleton_append, List.cons_append] at hreaches₁
  have hrow : (tooth (z - 1) (-1) a).row = z - 1 - 1 := by
    simp only [tooth, Span.row]
    omega
  obtain ⟨t₂, htable₂, hpushes₂⟩ := htable₁.full (s := tooth (z - 1) (-1) a) (Nat.le_refl _)
    (by simp only [tooth]; omega) hrow (by omega) (by omega) (by omega)
  have hreaches₂ := hreaches₁.pushes hpushes₂ htable₁.maxZ
  have hz2 : z - 1 - 1 = z - 2 := by omega
  rw [hrow, hz2, leakLeft, if_pos (by simp only [tooth]; omega), hrow, hz2] at hreaches₂
  rw [hz2] at htable₂
  exact ⟨t₂, htable₂, hreaches₂⟩

theorem length_teeth (y : Int) (a : Nat) :
    (((List.range a).map (tooth y (-1))).reverse).length = a := by simp

theorem teeth_inRange (hz : 2 ≤ z) (hz' : z ≤ 255) (ha : a ≤ 128) :
    ∀ q ∈ (List.range a).map (tooth (z - 1) (-1)), InRange 255 q := fun q hq =>
  ⟨(teeth_spent hz hz' ha q hq).low, (teeth_spent hz hz' ha q hq).high⟩

/-- Two rows further down, with all teeth and the leak of the last one pending. -/
theorem Descent.next (h : Descent rounds z t stack) (hz : 2 ≤ z) (hz' : z ≤ 255)
    (hodd : z % 2 = 1) (hroom : stack.length + 129 ≤ LUTFILL_MAXDEPTH) :
    ∃ t' stack', Descent (rounds + 2) (z - 2) t' stack' ∧ stack'.length = stack.length + 128 := by
  have hteeth := pushes_all stack (teeth_inRange hz hz' (Nat.le_refl 128))
    (show stack.length + ((List.range 128).map (tooth (z - 1) (-1))).length ≤ LUTFILL_MAXDEPTH by
      rw [List.length_map, List.length_range]
      omega)
  obtain ⟨t', htable, hreaches⟩ := h.rows hz hz' hodd (a := 127) (by decide) hteeth
  have hlength : (((List.range 127).map (tooth (z - 1) (-1))).reverse ++ stack).length =
      stack.length + 127 := by
    rw [List.length_append, length_teeth, Nat.add_comm]
  have hpushes : ⟨0, 2 * 127, z - 2, 1⟩ :: roundPushes (z - 2) (-1) (2 * 127 + 1) 0 256 =
      [⟨0, 254, z - 2, 1⟩, ⟨0, 255, z - 2, -1⟩] := rfl
  rw [hpushes, pushes_all _ _ (by rw [hlength]; exact hroom)] at hreaches
  · refine ⟨t', ⟨0, 254, z - 2, 1⟩ :: (((List.range 127).map (tooth (z - 1) (-1))).reverse ++ stack),
      ⟨hreaches, htable, h.spent_pushed hz hz' (by decide) (by decide)⟩,
      by rw [List.length_cons, hlength]⟩
  · simp only [List.mem_cons, List.not_mem_nil, or_false, forall_eq_or_imp, forall_eq, InRange,
      Span.row]
    omega

/-- The comb in which the stack becomes full: of the full row behind it only
the leak to the left is pushed, and nothing asks for the rows further down. -/
theorem Descent.last (h : Descent rounds z t stack) (hz : 2 ≤ z) (hz' : z ≤ 255)
    (hodd : z % 2 = 1) (hlength : stack.length = 9984) :
    ∃ t' stack', Reaches (rounds + 2) t' stack' ∧ Untouched t' (z - 2) ∧
      ∀ q ∈ stack', Spent (z - 2) q := by
  have hrange : List.range 128 = List.range 16 ++ List.range' 16 112 := by decide
  have hteeth : ((List.range 128).map (tooth (z - 1) (-1))).foldl
      (LUTFILL_PUSH LUTFILL_MAXDEPTH 255) stack =
        ((List.range 16).map (tooth (z - 1) (-1))).reverse ++ stack := by
    rw [hrange, List.map_append, List.foldl_append,
      pushes_all _ (teeth_inRange hz hz' (by decide)), pushes_full]
    · rw [List.length_append, length_teeth, hlength]
      exact Nat.le_refl _
    · rw [List.length_map, List.length_range, hlength]
      exact Nat.le_refl _
  obtain ⟨t', htable, hreaches⟩ := h.rows hz hz' hodd (a := 15) (by decide) hteeth
  have hpush : LUTFILL_PUSH LUTFILL_MAXDEPTH 255
      (((List.range 15).map (tooth (z - 1) (-1))).reverse ++ stack) ⟨0, 2 * 15, z - 2, 1⟩ =
        ⟨0, 30, z - 2, 1⟩ :: (((List.range 15).map (tooth (z - 1) (-1))).reverse ++ stack) := by
    refine if_pos ⟨?_, by simp only; omega, by simp only; omega⟩
    rw [List.length_append, length_teeth, hlength]
    decide
  rw [List.foldl_cons, hpush, pushes_full] at hreaches
  · exact ⟨t', _, hreaches, htable, h.spent_pushed hz hz' (by decide) (by decide)⟩
  · rw [List.length_cons, List.length_append, length_teeth, hlength]
    exact Nat.le_refl _

end Descent

theorem descent (k : Nat) (hk : k ≤ 78) :
    ∃ rounds t stack, Descent rounds (255 - 2 * k) t stack ∧ stack.length = 128 * k := by
  induction k with
  | zero =>
    obtain ⟨t, ht⟩ := descent_first
    exact ⟨1, t, [], ht, rfl⟩
  | succ k ih =>
    obtain ⟨rounds, t, stack, hdescent, hlength⟩ := ih (by omega)
    have hroom : stack.length + 129 ≤ LUTFILL_MAXDEPTH := by
      rw [LUTFILL_MAXDEPTH]
      omega
    obtain ⟨t', stack', hdescent', hlength'⟩ :=
      hdescent.next (by omega) (by omega) (by omega) hroom
    have hz : (255 : Int) - 2 * k - 2 = 255 - 2 * (k + 1 : Nat) := by omega
    rw [hz] at hdescent'
    exact ⟨_, t', stack', hdescent', by omega⟩

theorem Untouched.drain {t : LUT3D} {z : Int} (h : Untouched t z) (stack : List Span)
    (hspent : ∀ q ∈ stack, Spent z q) (m : Nat) (hm : stack.length ≤ m) :
    combFill.fillLoop LUTFILL_MAXDEPTH m t stack = some t := by
  induction stack generalizing m with
  | nil => cases m <;> rfl
  | cons s rest ih =>
    obtain ⟨m, rfl⟩ : ∃ k, m = k + 1 := ⟨m - 1, by rw [List.length_cons] at hm; omega⟩
    have hs := hspent s List.mem_cons_self
    have hfits : Fits t s := by
      refine ⟨hs.le, by rw [h.maxY]; exact hs.width, hs.low, ?_⟩
      rw [h.maxZ]
      exact hs.high
    obtain ⟨t', pushed, hrounds⟩ := exists_round combFill_stops hfits
    obtain ⟨rfl, rfl⟩ := hrounds.idle fun c hc => by
      have := ((h.old c s.row).mp hc.mem).2.2.1
      have := hs.spent
      omega
    simp only [fillLoop, hrounds.segment, Option.bind_eq_bind, Option.bind_some]
    exact ih (fun q hq => hspent q (List.mem_cons_of_mem _ hq)) m
      (Nat.le_of_succ_le_succ hm)

theorem mem_combRegion (j : Nat) (hj : j ≤ 255) :
    ((1, 255 - (j : Int)) : Cell) ∈ Region (combFill.old combTable) (0, 255) := by
  induction j with
  | zero =>
    have hold : ((1, 255) : Cell) ∈ combFill.old combTable := (combTable_old 1 255).mpr (by decide)
    exact region_beside region_origin hold ⟨rfl, .inl rfl⟩
  | succ j ih =>
    refine region_above (ih (by omega)) ((combTable_old _ _).mpr ?_) ⟨rfl, .inr ?_⟩
    · exact ⟨by decide, by omega, by omega, .inl rfl⟩
    · simp only
      omega

theorem maskFillYZ_combs (n : Nat) :
    combTable.maskFillYZ n 0 0 255 2 .numeric false false false =
      combFill.fillLoop LUTFILL_MAXDEPTH n combTable (combTable.seeds LUTFILL_MAXDEPTH 0 255) := by
  have hdone : ¬ combFill.done = true := by decide
  have horigin : ¬ (0 > combTable.getMaxY ∨ 255 > combTable.getMaxZ) := by decide
  rw [combFill] at hdone ⊢
  rw [LUT3D.maskFillYZ, if_neg hdone, if_neg horigin]

end LARCmaCS
