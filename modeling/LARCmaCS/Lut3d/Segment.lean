import Mathlib.Algebra.Group.Nat.Defs
import Mathlib.Order.BooleanAlgebra.Set
import LARCmaCS.Lut3d.Table

/-!
# One round of the segment loop

What the row loops of `maskFillYZ` write and push. `fillSegment_spec`: a
round is a sweep in the sense of the scan-line seed fill, and the segments it
pushes depend neither on the stack nor on its depth.
-/

namespace LARCmaCS

open SeedFill

-- ---------------------------------------------------------------------------
-- The cells of a slice
-- ---------------------------------------------------------------------------

namespace LUT3D

def Grid (t : LUT3D) : Set Cell := {p | p.1 ≤ t.getMaxY ∧ 0 ≤ p.2 ∧ p.2 ≤ t.getMaxZ}

theorem size_le {bits : Nat} (h : bits ≤ 8) : 0x01 <<< bits ≤ 256 := by
  rw [Nat.shiftLeft_eq, Nat.one_mul]
  exact Nat.pow_le_pow_right (by decide) h

theorem uchar_of_lt {n : Nat} (h : n < 256) : uchar n = n := by
  simp only [uchar]
  omega

theorem lt_pow_of_le {bits y : Nat} (hy : y ≤ 0x01 <<< bits - 0x01) : y < 2 ^ bits := by
  have := Nat.two_pow_pos bits
  rw [Nat.shiftLeft_eq, Nat.one_mul] at hy
  omega

theorem digit_inj {a a' b c c' : Nat} (hc : c < b) (hc' : c' < b) (h : a * b + c = a' * b + c') :
    a = a' ∧ c = c' := by
  have hdigit : c = c' := by
    have hmod := congrArg (· % b) h
    simpa only [Nat.mul_add_mod_of_lt hc, Nat.mul_add_mod_of_lt hc'] using hmod
  subst hdigit
  exact ⟨Nat.eq_of_mul_eq_mul_right (by omega) (Nat.add_right_cancel h), rfl⟩

theorem digit_lt {a b c n : Nat} (ha : a < n) (hc : c < b) : a * b + c < n * b :=
  calc a * b + c < a * b + b := Nat.add_lt_add_left hc _
    _ = (a + 1) * b := (Nat.succ_mul a b).symm
    _ ≤ n * b := Nat.mul_le_mul_right b ha

theorem preshrunk_eq (t : LUT3D) (x : Nat) {y z : Nat} (hy : y ≤ t.getMaxY) (hz : z ≤ t.getMaxZ) :
    t.preshrunk x y z = (uchar x * 2 ^ t.Y_BITS + y) * 2 ^ t.Z_BITS + z := by
  have hy' := lt_pow_of_le hy
  have hz' := lt_pow_of_le hz
  have hsizeY := size_le t.y_bits_le
  have hsizeZ := size_le t.z_bits_le
  rw [Nat.shiftLeft_eq, Nat.one_mul] at hsizeY hsizeZ
  rw [preshrunk, uchar_of_lt (n := y) (by omega), uchar_of_lt (n := z) (by omega), Z_AND_Y_BITS,
    Nat.shiftLeft_add, ← Nat.shiftLeft_or_distrib, ← Nat.shiftLeft_add_eq_or_of_lt hy',
    ← Nat.shiftLeft_add_eq_or_of_lt hz', Nat.shiftLeft_eq, Nat.shiftLeft_eq]

theorem preshrunk_inj {t : LUT3D} (x : Nat) {p q : Cell} (hp : p ∈ t.Grid) (hq : q ∈ t.Grid)
    (h : t.preshrunk x p.1 p.2 = t.preshrunk x q.1 q.2) : p = q := by
  obtain ⟨y, z⟩ := p
  obtain ⟨y', z'⟩ := q
  obtain ⟨hy, hz0, hz⟩ := hp
  obtain ⟨hy', hz0', hz'⟩ := hq
  simp only at *
  lift z to Nat using hz0
  lift z' to Nat using hz0'
  have hz := Int.ofNat_le.mp hz
  have hz' := Int.ofNat_le.mp hz'
  rw [preshrunk_eq t x hy hz, preshrunk_eq t x hy' hz'] at h
  obtain ⟨hdiv, rfl⟩ := digit_inj (lt_pow_of_le hz) (lt_pow_of_le hz') h
  obtain ⟨-, rfl⟩ := digit_inj (lt_pow_of_le hy) (lt_pow_of_le hy') hdiv
  rfl

theorem preshrunk_lt {t : LUT3D} {x : Nat} (hx : x ≤ t.getMaxX) {p : Cell} (hp : p ∈ t.Grid) :
    t.preshrunk x p.1 p.2 < t.LUT_SIZE := by
  obtain ⟨y, z⟩ := p
  obtain ⟨hy, hz0, hz⟩ := hp
  simp only at *
  lift z to Nat using hz0
  have hsize := size_le t.x_bits_le
  have hx' := lt_pow_of_le hx
  rw [Nat.shiftLeft_eq, Nat.one_mul] at hsize
  rw [preshrunk_eq t x hy (Int.ofNat_le.mp hz), uchar_of_lt (by omega)]
  have hlt := digit_lt (digit_lt hx' (lt_pow_of_le hy)) (lt_pow_of_le (Int.ofNat_le.mp hz))
  rw [← Nat.pow_add, ← Nat.pow_add, ← TOTAL_BITS] at hlt
  rw [LUT_SIZE, Nat.shiftLeft_eq, Nat.one_mul, Nat.pow_succ]
  omega

end LUT3D

-- ---------------------------------------------------------------------------
-- Painting
-- ---------------------------------------------------------------------------

namespace MaskFill

/-- What the fill writes, it does not fill again. -/
def Stops (f : MaskFill) : Prop := ∀ v, f.fills v = true → f.fills (f.target v) = false

def value (f : MaskFill) (t : LUT3D) (p : Cell) : LutMask := t.get_preshrunk f.slice_x p.1 p.2

/-- The cells of the slice that the fill would still extend to. -/
def old (f : MaskFill) (t : LUT3D) : Set Cell := {p | p ∈ t.Grid ∧ f.fills (f.value t p) = true}

/-- The cells of `N` have been written over once, nothing else has changed. -/
structure Painted (f : MaskFill) (N : Set Cell) (t t' : LUT3D) : Prop where
  bits : t' = { t with LUT := t'.LUT }
  inside : ∀ p ∈ N, f.value t' p = f.target (f.value t p)
  outside : ∀ i, (∀ p ∈ N, i ≠ t.preshrunk f.slice_x p.1 p.2) → t'.LUT i = t.LUT i

section Painted

variable {f : MaskFill} {N N' : Set Cell} {t t' t'' : LUT3D} {p q : Cell}

theorem Painted.grid (h : f.Painted N t t') : t'.Grid = t.Grid := by
  rw [h.bits]
  rfl

theorem Painted.getMaxY (h : f.Painted N t t') : t'.getMaxY = t.getMaxY := by
  rw [h.bits]
  rfl

theorem Painted.getMaxZ (h : f.Painted N t t') : t'.getMaxZ = t.getMaxZ := by
  rw [h.bits]
  rfl

theorem Painted.preshrunk (h : f.Painted N t t') (x y z : Int) :
    t'.preshrunk x y z = t.preshrunk x y z := by
  rw [h.bits]
  rfl

theorem painted_nil : f.Painted ∅ t t := ⟨rfl, fun _ hp => hp.elim, fun _ _ => rfl⟩

theorem Painted.value_of_notMem (h : f.Painted N t t') (hN : N ⊆ t.Grid) (hq : q ∈ t.Grid)
    (hqN : q ∉ N) : f.value t' q = f.value t q := by
  rw [value, LUT3D.get_preshrunk, h.preshrunk]
  refine h.outside _ fun p hp heq => hqN ?_
  rwa [LUT3D.preshrunk_inj f.slice_x hq (hN hp) heq]

theorem painted_write (c : Nat) (y : Int) : f.Painted {(c, y)} t (f.write t c y) := by
  refine ⟨rfl, ?_, fun i hi => ?_⟩
  · rintro p rfl
    exact Function.update_self ..
  · exact Function.update_of_ne (hi (c, y) rfl) ..

theorem Painted.trans (h : f.Painted N t t') (h' : f.Painted N' t' t'') (hN : N ⊆ t.Grid)
    (hN' : N' ⊆ t.Grid) (hdisjoint : ∀ p ∈ N, p ∉ N') : f.Painted (N ∪ N') t t'' := by
  refine ⟨?_, ?_, fun i hi => ?_⟩
  · rw [h'.bits, h.bits]
  · rintro p (hp | hp)
    · rw [h'.value_of_notMem (by rwa [h.grid]) (by rw [h.grid]; exact hN hp) (hdisjoint p hp),
        h.inside p hp]
    · rw [h'.inside p hp, h.value_of_notMem hN (hN' hp) fun hp' => hdisjoint p hp' hp]
  · rw [h'.outside i fun p hp => by rw [h.preshrunk]; exact hi p (.inr hp),
      h.outside i fun p hp => hi p (.inl hp)]

theorem old_subset : f.old t ⊆ t.Grid := fun _ hp => hp.1

theorem Painted.old (h : f.Painted N t t') (hstops : f.Stops) (hN : N ⊆ f.old t) :
    f.old t' = f.old t \ N := by
  ext p
  constructor
  · rintro ⟨hgrid, hfills⟩
    rw [h.grid] at hgrid
    have hpN : p ∉ N := by
      intro hp
      rw [h.inside p hp, hstops _ (hN hp).2] at hfills
      cases hfills
    rw [h.value_of_notMem (hN.trans old_subset) hgrid hpN] at hfills
    exact ⟨⟨hgrid, hfills⟩, hpN⟩
  · rintro ⟨⟨hgrid, hfills⟩, hpN⟩
    refine ⟨by rwa [h.grid], ?_⟩
    rwa [h.value_of_notMem (hN.trans old_subset) hgrid hpN]

end Painted

-- ---------------------------------------------------------------------------
-- The loops over a row
-- ---------------------------------------------------------------------------

def Strip (y : Int) (lo hi : Nat) : Set Cell := {p | p.2 = y ∧ lo ≤ p.1 ∧ p.1 < hi}

theorem strip_empty (y : Int) (c : Nat) : Strip y c c = ∅ := by
  rw [Set.eq_empty_iff_forall_notMem]
  rintro p ⟨-, hle, hlt⟩
  omega

theorem strip_insert_left {y : Int} {lo hi : Nat} (h : lo < hi) :
    {(lo, y)} ∪ Strip y (lo + 1) hi = Strip y lo hi := by
  ext ⟨c, r⟩
  simp only [Strip, Set.mem_union, Set.mem_singleton_iff, Set.mem_ofPred_eq, Prod.mk.injEq]
  omega

theorem strip_insert_right {y : Int} {lo n : Nat} (h : lo ≤ n) :
    {(n, y)} ∪ Strip y lo n = Strip y lo (n + 1) := by
  ext ⟨c, r⟩
  simp only [Strip, Set.mem_union, Set.mem_singleton_iff, Set.mem_ofPred_eq, Prod.mk.injEq]
  omega

section Row

variable {f : MaskFill} {t : LUT3D} {y : Int} {c : Nat}

theorem mem_old_iff (hc : c ≤ t.getMaxY) (hy : 0 ≤ y) (hy' : y ≤ t.getMaxZ) :
    (c, y) ∈ f.old t ↔ f.test t c y = true :=
  ⟨fun h => h.2, fun h => ⟨⟨hc, hy, hy'⟩, h⟩⟩

theorem old_write (hstops : f.Stops) (hold : (c, y) ∈ f.old t) :
    f.old (f.write t c y) = f.old t \ {(c, y)} :=
  (painted_write c y).old hstops (Set.singleton_subset_iff.mpr hold)

theorem painted_insert (hold : (c, y) ∈ f.old t) {t' : LUT3D} {S : Set Cell}
    (hpainted : f.Painted S (f.write t c y) t') (hsub : S ⊆ f.old t \ {(c, y)}) :
    f.Painted ({(c, y)} ∪ S) t t' ∧ {(c, y)} ∪ S ⊆ f.old t := by
  refine ⟨(painted_write c y).trans hpainted ?_ ?_ ?_, ?_⟩
  · exact Set.singleton_subset_iff.mpr hold.1
  · exact fun p hp => (hsub hp).1.1
  · rintro p rfl hp
    exact (hsub hp).2 rfl
  · exact Set.union_subset (Set.singleton_subset_iff.mpr hold) fun p hp => (hsub hp).1

/-- The loop to the left fills the run up to column `n - 1`. -/
theorem fillLeft_spec (hstops : f.Stops) (hy : 0 ≤ y) (n : Nat) (t : LUT3D) (hy' : y ≤ t.getMaxZ)
    (hn : n ≤ t.getMaxY + 1) :
    ∃ left t', f.fillLeft y n t = (left, t') ∧ left ≤ n ∧ f.Painted (Strip y left n) t t' ∧
      Strip y left n ⊆ f.old t ∧ (left = 0 ∨ (left - 1, y) ∉ f.old t) := by
  induction n generalizing t with
  | zero =>
    refine ⟨0, t, rfl, Nat.le_refl 0, ?_, ?_, .inl rfl⟩
    · rw [strip_empty]
      exact painted_nil
    · simp [strip_empty]
  | succ n ih =>
    by_cases htest : f.test t n y = true
    · have hold : (n, y) ∈ f.old t := (mem_old_iff (by omega) hy hy').mpr htest
      have hpaint : f.Painted {(n, y)} t (f.write t n y) := painted_write n y
      obtain ⟨left, t', hfill, hle, hpainted, hsub, hend⟩ :=
        ih (f.write t n y) (by rwa [hpaint.getMaxZ]) (by rw [hpaint.getMaxY]; omega)
      rw [old_write hstops hold] at hsub hend
      obtain ⟨hpainted, hsub⟩ := painted_insert hold hpainted hsub
      rw [strip_insert_right hle] at hpainted hsub
      refine ⟨left, t', by rw [fillLeft, if_pos htest, hfill], by omega, hpainted, hsub, ?_⟩
      refine or_iff_not_imp_left.mpr fun hleft hold' => ?_
      refine (hend.resolve_left hleft) ⟨hold', fun heq => ?_⟩
      have hcol : left - 1 = n := congrArg Prod.fst heq
      omega
    · refine ⟨n + 1, t, by rw [fillLeft, if_neg htest], Nat.le_refl _, ?_, ?_, .inr ?_⟩
      · rw [strip_empty]
        exact painted_nil
      · simp [strip_empty]
      · rw [Nat.add_sub_cancel, mem_old_iff (by omega) hy hy']
        exact htest

theorem fillRight_spec (hstops : f.Stops) (hy : 0 ≤ y) (n x : Nat) (t : LUT3D) (hy' : y ≤ t.getMaxZ)
    (hn : x + n = t.getMaxY + 1 ∨ n = 0) :
    ∃ e t', f.fillRight y n x t = (e, t') ∧ x ≤ e ∧ e ≤ x + n ∧ f.Painted (Strip y x e) t t' ∧
      Strip y x e ⊆ f.old t ∧ (e = x + n ∨ (e, y) ∉ f.old t) := by
  induction n generalizing x t with
  | zero =>
    refine ⟨x, t, rfl, Nat.le_refl x, Nat.le_refl x, ?_, ?_, .inl rfl⟩
    · rw [strip_empty]
      exact painted_nil
    · simp [strip_empty]
  | succ n ih =>
    by_cases htest : f.test t x y = true
    · have hold : (x, y) ∈ f.old t := (mem_old_iff (by omega) hy hy').mpr htest
      have hpaint : f.Painted {(x, y)} t (f.write t x y) := painted_write x y
      obtain ⟨e, t', hfill, hle, hle', hpainted, hsub, hend⟩ :=
        ih (x + 1) (f.write t x y) (by rwa [hpaint.getMaxZ]) (by rw [hpaint.getMaxY]; omega)
      rw [old_write hstops hold] at hsub hend
      obtain ⟨hpainted, hsub⟩ := painted_insert hold hpainted hsub
      rw [strip_insert_left (Nat.lt_of_succ_le hle)] at hpainted hsub
      refine ⟨e, t', by rw [fillRight, if_pos htest, hfill], by omega, by omega, hpainted, hsub, ?_⟩
      rcases hend with hend | hend
      · left
        omega
      · refine .inr fun hold' => hend ⟨hold', fun heq => ?_⟩
        have hcol : e = x := congrArg Prod.fst heq
        omega
    · refine ⟨x, t, by rw [fillRight, if_neg htest], Nat.le_refl _, by omega, ?_, ?_, .inr ?_⟩
      · rw [strip_empty]
        exact painted_nil
      · simp [strip_empty]
      · rw [mem_old_iff (by omega) hy hy']
        exact htest

theorem skip_spec (hy : 0 ≤ y) (hy' : y ≤ t.getMaxZ) (n x : Nat)
    (hn : x + n ≤ t.getMaxY + 1 ∨ n = 0) :
    x ≤ f.skip y t n x ∧ f.skip y t n x ≤ x + n ∧
      (∀ k, x ≤ k → k < f.skip y t n x → (k, y) ∉ f.old t) ∧
      (f.skip y t n x < x + n → (f.skip y t n x, y) ∈ f.old t) := by
  induction n generalizing x with
  | zero => exact ⟨Nat.le_refl x, Nat.le_refl x, fun k hk hk' => absurd hk' (Nat.not_lt.mpr hk),
      fun hlt => absurd hlt (Nat.lt_irrefl x)⟩
  | succ n ih =>
    rw [skip]
    by_cases htest : f.test t x y = false
    · rw [if_pos htest]
      obtain ⟨hle, hle', hclear, hend⟩ := ih (x + 1) (by omega)
      refine ⟨by omega, by omega, fun k hk hk' => ?_, fun hlt => hend (by omega)⟩
      rcases Nat.lt_or_eq_of_le hk with hlt | rfl
      · exact hclear k hlt hk'
      · rw [mem_old_iff (by omega) hy hy', htest]
        decide
    · rw [if_neg htest]
      refine ⟨Nat.le_refl x, by omega, fun k hk hk' => absurd hk' (Nat.not_lt.mpr hk), fun _ => ?_⟩
      rw [mem_old_iff (by omega) hy hy']
      simpa using htest

end Row

-- ---------------------------------------------------------------------------
-- The runs of a row
-- ---------------------------------------------------------------------------

/-- The columns that the do-while loop fills from column `x` on, where `o` are
the old ones. -/
def Ahead (o : Nat → Prop) (x2 x c : Nat) : Prop :=
  x ≤ c ∧ ∀ k, x ≤ k → min c x2 ≤ k → k ≤ c → o k

theorem Ahead.mem {o : Nat → Prop} {x2 x c : Nat} (h : Ahead o x2 x c) : o c :=
  h.2 c h.1 (Nat.min_le_left ..) (Nat.le_refl c)

theorem ahead_congr {o o' : Nat → Prop} {x2 x : Nat} (h : ∀ k, x ≤ k → (o k ↔ o' k)) (c : Nat) :
    Ahead o x2 x c ↔ Ahead o' x2 x c :=
  and_congr_right fun _ => forall_congr' fun k => forall_congr' fun hk => by rw [h k hk]

theorem ahead_iff {o : Nat → Prop} {width x2 x e x' : Nat} (hwidth : ∀ k, o k → k < width)
    (hle : x ≤ e) (hrun : ∀ k, x ≤ k → k < e → o k) (hend : e = width ∨ ¬ o e) (hgap : e + 1 ≤ x')
    (hclear : ∀ k, e + 1 ≤ k → k < x' → ¬ o k) (c : Nat) :
    Ahead o x2 x c ↔ (x ≤ c ∧ c < e) ∨ x' ≤ x2 ∧ Ahead o x2 x' c := by
  constructor
  · rintro ⟨hc, hold⟩
    by_cases hce : c < e
    · exact .inl ⟨hc, hce⟩
    · have hwc := hwidth c (hold c hc (Nat.min_le_left ..) (Nat.le_refl c))
      have hendo : ¬ o e := hend.resolve_left (by omega)
      have hm : e < min c x2 := Nat.lt_of_not_le fun hm => hendo (hold e hle hm (by omega))
      have hmo : o (min c x2) := hold _ (by omega) (Nat.le_refl _) (Nat.min_le_left ..)
      have hx' : x' ≤ min c x2 := Nat.le_of_not_lt fun hlt => hclear _ hm hlt hmo
      exact .inr ⟨by omega, by omega, fun k hk hk' hk'' => hold k (by omega) hk' hk''⟩
  · rintro (⟨hc, hce⟩ | ⟨hx', hc, hold⟩)
    · exact ⟨hc, fun k hk _ hk'' => hrun k hk (by omega)⟩
    · exact ⟨by omega, fun k hk hk' hk'' => hold k (by omega) hk' hk''⟩

/-- What the rounds of the do-while loop push for the columns `N` they fill,
those before `x` included. -/
structure RunPushes (y dy : Int) (x2 : Nat) (N : Nat → Prop) (pushed : List Span) : Prop where
  le : ∀ p ∈ pushed, p.xl ≤ p.xr
  row : ∀ p ∈ pushed, p.y = y
  dir : ∀ p ∈ pushed, p.dy = dy ∨ p.dy = -dy
  hit : ∀ p ∈ pushed, ∀ c, p.Covers c → N c
  onward : ∀ c, N c → ∃ p ∈ pushed, p.dy = dy ∧ p.Covers c
  back : ∀ c, N c → x2 < c → ∃ p ∈ pushed, p.dy = -dy ∧ p.Covers c

theorem RunPushes.append {y dy : Int} {x2 : Nat} {N N' : Nat → Prop} {pushed pushed' : List Span}
    (h : RunPushes y dy x2 N pushed) (h' : RunPushes y dy x2 N' pushed') :
    RunPushes y dy x2 (fun c => N c ∨ N' c) (pushed ++ pushed') := by
  have hmem {P : Span → Prop} (hP : ∀ p ∈ pushed, P p) (hP' : ∀ p ∈ pushed', P p) :
      ∀ p ∈ pushed ++ pushed', P p :=
    fun p hp => (List.mem_append.mp hp).elim (hP p) (hP' p)
  have hex {P : Span → Prop} (hP : (∃ p ∈ pushed, P p) ∨ ∃ p ∈ pushed', P p) :
      ∃ p ∈ pushed ++ pushed', P p := by
    rcases hP with ⟨p, hp, hpP⟩ | ⟨p, hp, hpP⟩
    · exact ⟨p, List.mem_append_left _ hp, hpP⟩
    · exact ⟨p, List.mem_append_right _ hp, hpP⟩
  exact {
    le := hmem h.le h'.le
    row := hmem h.row h'.row
    dir := hmem h.dir h'.dir
    hit := hmem (fun p hp c hc => .inl (h.hit p hp c hc)) fun p hp c hc => .inr (h'.hit p hp c hc)
    onward := fun c hc => hex (hc.imp (h.onward c) (h'.onward c))
    back := fun c hc hx2 => hex (hc.imp (h.back c · hx2) (h'.back c · hx2)) }

def roundPushes (y dy : Int) (x2 left e : Nat) : List Span :=
  if e > x2 + 1 then [⟨left, e - 1, y, dy⟩, ⟨x2 + 1, e - 1, y, -dy⟩] else [⟨left, e - 1, y, dy⟩]

theorem roundPushes_foldl (depth maxZ : Nat) (stack : List Span) (y dy : Int) (x2 left e : Nat) :
    (roundPushes y dy x2 left e).foldl (LUTFILL_PUSH depth maxZ) stack =
      if e > x2 + 1 then
        LUTFILL_PUSH depth maxZ (LUTFILL_PUSH depth maxZ stack ⟨left, e - 1, y, dy⟩)
          ⟨x2 + 1, e - 1, y, -dy⟩
      else LUTFILL_PUSH depth maxZ stack ⟨left, e - 1, y, dy⟩ := by
  rw [roundPushes]
  split <;> rfl

theorem runPushes_round (y dy : Int) {x2 left e : Nat} (hle : left < e) (hleft : left ≤ x2 + 1) :
    RunPushes y dy x2 (fun c => left ≤ c ∧ c < e) (roundPushes y dy x2 left e) := by
  rw [roundPushes]
  split
  · rename_i hleak
    refine ⟨?_, ?_, ?_, ?_, fun c hc => ?_, fun c hc hx2 => ?_⟩
    · simp only [List.mem_cons, List.not_mem_nil, or_false, forall_eq_or_imp, forall_eq]
      omega
    · simp
    · simp
    · simp only [List.mem_cons, List.not_mem_nil, or_false, forall_eq_or_imp, forall_eq, Span.Covers]
      exact ⟨fun c hc => by omega, fun c hc => by omega⟩
    · exact ⟨_, List.mem_cons_self, rfl, hc.1, by simp only; omega⟩
    · exact ⟨_, List.mem_cons_of_mem _ List.mem_cons_self, rfl, hx2, by simp only; omega⟩
  · rename_i hleak
    refine ⟨?_, by simp, by simp, ?_, fun c hc => ?_, fun c hc hx2 => by omega⟩
    · simp only [List.mem_singleton, forall_eq]
      omega
    · simp only [List.mem_singleton, forall_eq, Span.Covers]
      exact fun c hc => by omega
    · exact ⟨_, List.mem_cons_self, rfl, hc.1, by simp only; omega⟩

/-- The pushes of the do-while loop in their order: onward for the run at `left`
and for every run behind column `x`, then back for what leaks to the right. -/
def RunOrder (old : Set Cell) (y dy : Int) (x2 x left : Nat) (pushed : List Span) : Prop :=
  ∃ e tail right, pushed = ⟨left, e, y, dy⟩ :: tail ++ right ∧
    tail.Pairwise (fun p q => p.xl < q.xl) ∧ (∀ p ∈ tail, x < p.xl ∧ (p.xl, y) ∈ leftEnds old) ∧
    right.length ≤ 1 ∧ ∀ p ∈ right, p.xl = x2 + 1 ∧ p.row = y - dy

theorem runOrder_round (old : Set Cell) (y dy : Int) (x2 x left e : Nat) :
    RunOrder old y dy x2 x left (roundPushes y dy x2 left e) := by
  rw [roundPushes]
  split
  · refine ⟨e - 1, [], [⟨x2 + 1, e - 1, y, -dy⟩], rfl, .nil, by simp, by simp, fun p hp => ?_⟩
    obtain rfl := List.mem_singleton.mp hp
    exact ⟨rfl, rfl⟩
  · exact ⟨e - 1, [], [], rfl, .nil, by simp, by simp, by simp⟩

theorem RunOrder.cons {old : Set Cell} {y dy : Int} {x2 x left e x' : Nat} {pushed : List Span}
    (h : RunOrder old y dy x2 x' x' pushed) (hx : x < x') (hends : (x', y) ∈ leftEnds old)
    (he : e ≤ x2 + 1) : RunOrder old y dy x2 x left (roundPushes y dy x2 left e ++ pushed) := by
  obtain ⟨e', tail, right, rfl, htail, hmem, hright, hback⟩ := h
  rw [roundPushes, if_neg (Nat.not_lt.mpr he)]
  refine ⟨e - 1, ⟨x', e', y, dy⟩ :: tail, right, rfl, ?_, ?_, hright, hback⟩
  · exact List.pairwise_cons.mpr ⟨fun p hp => (hmem p hp).1, htail⟩
  · intro p hp
    rcases List.mem_cons.mp hp with rfl | hp
    · exact ⟨hx, hends⟩
    · exact ⟨Nat.lt_trans hx (hmem p hp).1, (hmem p hp).2⟩

section Runs

variable {f : MaskFill} {y : Int}

def Row (y : Int) (N : Nat → Prop) : Set Cell := {p | p.2 = y ∧ N p.1}

theorem old_lt {t : LUT3D} {c : Nat} (h : (c, y) ∈ f.old t) : c < t.getMaxY + 1 :=
  Nat.lt_succ_of_le h.1.1

theorem Painted.old_beyond {t t' : LUT3D} {lo e k : Nat} (h : f.Painted (Strip y lo e) t t')
    (hstops : f.Stops) (hsub : Strip y lo e ⊆ f.old t) (hk : e ≤ k) :
    (k, y) ∈ f.old t' ↔ (k, y) ∈ f.old t := by
  rw [h.old hstops hsub]
  exact ⟨fun h => h.1, fun h => ⟨h, fun hstrip => Nat.not_lt.mpr hk hstrip.2.2⟩⟩

theorem Painted.leftEnds_beyond {t t' : LUT3D} {lo e k : Nat} (h : f.Painted (Strip y lo e) t t')
    (hstops : f.Stops) (hsub : Strip y lo e ⊆ f.old t) (hk : e < k) :
    (k, y) ∈ leftEnds (f.old t') ↔ (k, y) ∈ leftEnds (f.old t) := by
  refine and_congr (h.old_beyond hstops hsub (by omega)) (or_congr_right (not_congr ?_))
  exact h.old_beyond hstops hsub (Nat.le_sub_one_of_lt hk)

theorem Painted.strip_ahead {t t' t'' : LUT3D} {lo e x x2 : Nat}
    (h : f.Painted (Strip y lo e) t t') (hstops : f.Stops) (hsub : Strip y lo e ⊆ f.old t)
    (hx : e ≤ x) (h' : f.Painted (Row y (Ahead (fun k => (k, y) ∈ f.old t') x2 x)) t' t'') :
    f.Painted
      (Row y fun c => (lo ≤ c ∧ c < e) ∨ Ahead (fun k => (k, y) ∈ f.old t') x2 x c) t t'' := by
  have hunion : (Row y fun c => (lo ≤ c ∧ c < e) ∨ Ahead (fun k => (k, y) ∈ f.old t') x2 x c) =
      Strip y lo e ∪ Row y (Ahead (fun k => (k, y) ∈ f.old t') x2 x) := by
    ext p
    simp only [Row, Strip, Set.mem_union, Set.mem_ofPred_eq, and_or_left]
  rw [hunion]
  refine h.trans h' (fun p hp => (hsub hp).1) ?_ ?_
  · rintro ⟨c, r⟩ ⟨rfl, hc⟩
    exact ((h.old_beyond hstops hsub (hx.trans hc.1)).mp hc.mem).1
  · rintro ⟨c, r⟩ ⟨-, -, hce⟩ ⟨-, hc, -⟩
    simp only at hce hc
    omega

theorem fillRuns_succ {t t' : LUT3D} {x e : Nat} (n : Nat) (dy : Int) (x2 left : Nat)
    (hfill : f.fillRight y (t.getMaxY + 1 - x) x t = (e, t')) (hmaxZ : t'.getMaxZ = t.getMaxZ)
    (depth : Nat) (stack : List Span) :
    f.fillRuns depth x2 y dy (n + 1) x left t stack =
      if f.skip y t' (x2 - e) (e + 1) ≤ x2 then
        f.fillRuns depth x2 y dy n (f.skip y t' (x2 - e) (e + 1)) (f.skip y t' (x2 - e) (e + 1))
          t' ((roundPushes y dy x2 left e).foldl (LUTFILL_PUSH depth t.getMaxZ) stack)
      else some (t', (roundPushes y dy x2 left e).foldl (LUTFILL_PUSH depth t.getMaxZ) stack) := by
  rw [roundPushes_foldl]
  simp only [fillRuns, hfill, hmaxZ]

/-- The do-while loop fills what is ahead, and its pushes depend neither on the
stack nor on its depth. -/
theorem fillRuns_spec (dy : Int) (x2 : Nat) (hstops : f.Stops) (hy : 0 ≤ y) (n x left : Nat)
    (t : LUT3D) (hy' : y ≤ t.getMaxZ) (hx2 : x2 ≤ t.getMaxY) (hleft : left ≤ x) (hx : x ≤ x2 + 1)
    (hrun : left < x ∨ (x, y) ∈ f.old t) (hn : x2 + 2 ≤ n + x) :
    ∃ t' pushed,
      (∀ depth stack, f.fillRuns depth x2 y dy n x left t stack =
        some (t', pushed.foldl (LUTFILL_PUSH depth t.getMaxZ) stack)) ∧
      f.Painted (Row y (Ahead (fun k => (k, y) ∈ f.old t) x2 x)) t t' ∧
      RunPushes y dy x2 (fun c => (left ≤ c ∧ c < x) ∨ Ahead (fun k => (k, y) ∈ f.old t) x2 x c)
        pushed ∧
      RunOrder (f.old t) y dy x2 x left pushed := by
  induction n generalizing x left t with
  | zero => omega
  | succ n ih =>
    obtain ⟨e, t1, hfill, hle, hle', hpainted, hsub, hend⟩ :=
      fillRight_spec hstops hy (t.getMaxY + 1 - x) x t hy' (by omega)
    have hwidth : e = t.getMaxY + 1 ∨ (e, y) ∉ f.old t := hend.imp_left fun h => by omega
    have hlt : left < e := by
      rcases hrun with hrun | hrun
      · omega
      · refine Nat.lt_of_le_of_ne (Nat.le_trans hleft hle) fun heq => ?_
        have hxe : x = e := by omega
        have hlast := old_lt hrun
        rcases hwidth with hwidth | hwidth
        · omega
        · exact hwidth (hxe ▸ hrun)
    have hmaxY := hpainted.getMaxY
    have hmaxZ := hpainted.getMaxZ
    have hround := runPushes_round y dy hlt (show left ≤ x2 + 1 by omega)
    have hstep := fillRuns_succ n dy x2 left hfill hmaxZ
    obtain ⟨hgap, hskip, hclear, hnext⟩ :=
      skip_spec (f := f) (t := t1) hy (by rwa [hmaxZ]) (x2 - e) (e + 1) (by omega)
    generalize f.skip y t1 (x2 - e) (e + 1) = x' at hstep hgap hskip hclear hnext
    have hold1 {k : Nat} (hk : e ≤ k) := hpainted.old_beyond hstops hsub hk
    have hahead (c : Nat) : Ahead (fun k => (k, y) ∈ f.old t) x2 x c ↔
        (x ≤ c ∧ c < e) ∨ x' ≤ x2 ∧ Ahead (fun k => (k, y) ∈ f.old t) x2 x' c :=
      ahead_iff (fun k hk => old_lt hk) hle (fun k hk hke => hsub ⟨rfl, hk, hke⟩) hwidth hgap
        (fun k hk hkx' hk0 => hclear k hk hkx' ((hold1 (by omega)).mpr hk0)) c
    by_cases hmore : x' ≤ x2
    · obtain ⟨t', pushed, hruns, hpainted', hpushes, horder⟩ :=
        ih x' x' t1 (by rwa [hmaxZ]) (by rwa [hmaxY]) (Nat.le_refl x') (by omega)
          (.inr (hnext (by omega))) (by omega)
      have hahead1 (c : Nat) : Ahead (fun k => (k, y) ∈ f.old t1) x2 x' c ↔
          Ahead (fun k => (k, y) ∈ f.old t) x2 x' c :=
        ahead_congr (fun k hk => hold1 (by omega)) c
      rw [hmaxZ] at hruns
      refine ⟨t', roundPushes y dy x2 left e ++ pushed, fun depth stack => ?_, ?_, ?_, ?_⟩
      · rw [hstep, if_pos hmore, hruns, List.foldl_append]
      · have hcolumns : Ahead (fun k => (k, y) ∈ f.old t) x2 x = fun c =>
            (x ≤ c ∧ c < e) ∨ Ahead (fun k => (k, y) ∈ f.old t1) x2 x' c := by
          funext c
          simp only [hahead, hahead1, hmore, true_and]
        rw [hcolumns]
        exact hpainted.strip_ahead hstops hsub (by omega) hpainted'
      · have hcolumns : (fun c => (left ≤ c ∧ c < x) ∨ Ahead (fun k => (k, y) ∈ f.old t) x2 x c) =
            fun c => (left ≤ c ∧ c < e) ∨ (x' ≤ c ∧ c < x') ∨
              Ahead (fun k => (k, y) ∈ f.old t1) x2 x' c := by
          funext c
          rw [hahead, hahead1]
          simp only [hmore, true_and, eq_iff_iff]
          constructor
          · rintro (hc | hc | hc)
            · exact .inl ⟨hc.1, by omega⟩
            · exact .inl ⟨by omega, hc.2⟩
            · exact .inr (.inr hc)
          · rintro (hc | hc | hc)
            · exact (Nat.lt_or_ge c x).imp (⟨hc.1, ·⟩) fun hxc => .inl ⟨hxc, hc.2⟩
            · omega
            · exact .inr (.inr hc)
        rw [hcolumns]
        exact hround.append hpushes
      · refine RunOrder.cons ?_ (show x < x' by omega) ?_ (by omega)
        · obtain ⟨e', tail, right, hpushed, htail, hmem, hright, hback⟩ := horder
          refine ⟨e', tail, right, hpushed, htail, fun p hp => ?_, hright, hback⟩
          obtain ⟨hp, hends⟩ := hmem p hp
          exact ⟨hp, (hpainted.leftEnds_beyond hstops hsub (by omega)).mp hends⟩
        · refine ⟨(hold1 (by omega)).mp (hnext (by omega)), .inr fun hx' => ?_⟩
          by_cases hxe : x' - 1 = e
          · rw [hxe] at hx'
            exact hwidth.elim (fun hwidth => by have := old_lt hx'; omega) fun hclear => hclear hx'
          · exact hclear (x' - 1) (by omega) (by omega) ((hold1 (by omega)).mpr hx')
    · have hnone (c : Nat) : Ahead (fun k => (k, y) ∈ f.old t) x2 x c ↔ x ≤ c ∧ c < e := by
        rw [hahead]
        simp [hmore]
      refine ⟨t1, roundPushes y dy x2 left e, fun depth stack => ?_, ?_, ?_,
        runOrder_round (f.old t) y dy x2 x left e⟩
      · rw [hstep, if_neg hmore]
      · have hstrip : Row y (Ahead (fun k => (k, y) ∈ f.old t) x2 x) = Strip y x e := by
          ext p
          simp only [Row, Strip, Set.mem_ofPred_eq, hnone]
        rwa [hstrip]
      · have hcolumns : (fun c => (left ≤ c ∧ c < x) ∨ Ahead (fun k => (k, y) ∈ f.old t) x2 x c) =
            fun c => left ≤ c ∧ c < e := by
          funext c
          simp only [hnone, eq_iff_iff]
          omega
        rwa [hcolumns]

end Runs

-- ---------------------------------------------------------------------------
-- A segment
-- ---------------------------------------------------------------------------

theorem hit_iff {old : Set Cell} {s : Span} (hle : s.xl ≤ s.xr) (c : Nat) :
    s.Hit old c ↔ (c < s.xl ∧ ∀ k, c ≤ k → k ≤ s.xl → (k, s.row) ∈ old) ∨
      Ahead (fun k => (k, s.row) ∈ old) s.xr s.xl c := by
  constructor
  · intro h
    by_cases hc : c < s.xl
    · exact .inl ⟨hc, fun k hk hk' => h k (by omega) (by omega)⟩
    · exact .inr ⟨Nat.le_of_not_lt hc, fun k _ hk hk' => h k hk (by omega)⟩
  · rintro (⟨hc, h⟩ | ⟨hc, h⟩) k hk hk'
    · exact h k (by omega) (by omega)
    · by_cases hkx : s.xl ≤ k
      · exact h k hkx hk (by omega)
      · omega

theorem painted_empty {f : MaskFill} {t t' : LUT3D} (h : f.Painted ∅ t t') : t' = t := by
  have hLUT : t'.LUT = t.LUT := funext fun i => h.outside i fun _ hp => hp.elim
  rw [h.bits, hLUT]

structure Fits (t : LUT3D) (s : Span) : Prop where
  le : s.xl ≤ s.xr
  width : s.xr ≤ t.getMaxY
  low : 0 ≤ s.row
  high : s.row ≤ t.getMaxZ

section Segment

variable {f : MaskFill} {t : LUT3D} {s : Span}

/-- The push of a segment for what leaks to the left. -/
def leakLeft (s : Span) (left : Nat) : List Span :=
  if left < s.xl then [⟨left, s.xl - 1, s.row, -s.dy⟩] else []

theorem leakLeft_foldl (depth maxZ : Nat) (stack : List Span) (s : Span) (left : Nat) :
    (leakLeft s left).foldl (LUTFILL_PUSH depth maxZ) stack =
      if left < s.xl then LUTFILL_PUSH depth maxZ stack ⟨left, s.xl - 1, s.row, -s.dy⟩
      else stack := by
  rw [leakLeft]
  split <;> rfl

/-- The pushes of the runs under `s`, with the leak to the left of it, leave the
spans of a sweep. -/
theorem RunPushes.sweep {old : Set Cell} {pushed : List Span} {left : Nat}
    (h : RunPushes s.row s.dy s.xr (s.Hit old) pushed)
    (hleak : ∀ c, c < s.xl → (s.Hit old c ↔ left ≤ c)) :
    Sweep Set.univ old s (leakLeft s left ++ pushed) := by
  have hmem (p : Span) : p ∈ leakLeft s left ++ pushed ↔
      left < s.xl ∧ p = ⟨left, s.xl - 1, s.row, -s.dy⟩ ∨ p ∈ pushed := by
    rw [List.mem_append, leakLeft]
    split <;> simp [*]
  constructor
  · intro p hp
    rcases (hmem p).mp hp with ⟨hlt, rfl⟩ | hp
    · simp only
      omega
    · exact h.le p hp
  · intro p hp
    rcases (hmem p).mp hp with ⟨-, rfl⟩ | hp
    · rfl
    · exact h.row p hp
  · intro p hp
    rcases (hmem p).mp hp with ⟨-, rfl⟩ | hp
    · exact .inr rfl
    · exact h.dir p hp
  · intro p hp c hc
    rcases (hmem p).mp hp with ⟨hlt, rfl⟩ | hp
    · simp only [Span.Covers] at hc
      exact (hleak c (by omega)).mpr hc.1
    · exact h.hit p hp c hc
  · intro c hc _
    obtain ⟨p, hp, hpc⟩ := h.onward c hc
    exact ⟨p, List.mem_append_right _ hp, hpc⟩
  · intro c hc hcovers _
    by_cases hcx : s.xr < c
    · obtain ⟨p, hp, hpc⟩ := h.back c hc hcx
      exact ⟨p, List.mem_append_right _ hp, hpc⟩
    · have hcl : c < s.xl := Nat.lt_of_not_le fun hle' => hcovers ⟨hle', Nat.le_of_not_lt hcx⟩
      have hc' := (hleak c hcl).mp hc
      refine ⟨_, (hmem _).mpr (.inl ⟨by omega, rfl⟩), rfl, hc', ?_⟩
      simp only
      omega

theorem RunOrder.tally {old : Set Cell} {pushed : List Span} {left x : Nat}
    (h : RunOrder old s.row s.dy s.xr x left pushed) (hleft : left ≤ x)
    (hends : (left, s.row) ∈ leftEnds old) {l : Nat} (hleak : l < s.xl → (s.xl - 1, s.row) ∈ old) :
    ∃ onward right, leakLeft s l ++ pushed = leakLeft s l ++ onward ++ right ∧
      Tally old s (leakLeft s l) onward right := by
  obtain ⟨e, tail, right, rfl, htail, hmem, hright, hback⟩ := h
  refine ⟨⟨left, e, s.row, s.dy⟩ :: tail, right, (List.append_assoc ..).symm, ?_⟩
  refine ⟨?_, fun p hp => ?_, ?_, fun p hp => ?_, hright, fun p hp => ?_⟩
  · rw [leakLeft]
    split <;> simp
  · rw [leakLeft] at hp
    split at hp
    · exact hleak ‹_›
    · cases hp
  · exact List.pairwise_cons.mpr ⟨fun p hp => Nat.lt_of_le_of_lt hleft (hmem p hp).1, htail⟩
  · rcases List.mem_cons.mp hp with rfl | hp
    · exact hends
    · exact (hmem p hp).2
  · obtain ⟨hcolumn, hrow⟩ := hback p hp
    refine ⟨hcolumn, hrow.trans ?_⟩
    rw [Span.row]
    omega

theorem fillSegment_skip (hstops : f.Stops) (hs : Fits t s) (hclear : (s.xl, s.row) ∉ f.old t) :
    ∃ t' pushed,
      (∀ depth stack, f.fillSegment depth s t stack =
        some (t', pushed.foldl (LUTFILL_PUSH depth t.getMaxZ) stack)) ∧
      f.Painted (Row s.row (s.Hit (f.old t))) t t' ∧ Sweep Set.univ (f.old t) s pushed ∧
      ∃ left onward right, pushed = left ++ onward ++ right ∧
        Tally (f.old t) s left onward right := by
  obtain ⟨hle, hwidth, hlow, hhigh⟩ := hs
  have htest : f.test t s.xl s.row = false := by
    rw [mem_old_iff (by omega) hlow hhigh] at hclear
    simpa using hclear
  have hleft : f.fillLeft s.row (s.xl + 1) t = (s.xl + 1, t) := by
    rw [fillLeft, htest]
    rfl
  rw [Span.row] at hleft
  obtain ⟨hgap, hskip, hgapclear, hnext⟩ :=
    skip_spec (f := f) (t := t) hlow hhigh (s.xr - s.xl) (s.xl + 1) (by omega)
  have hstep (depth : Nat) (stack : List Span) : f.fillSegment depth s t stack =
      if f.skip s.row t (s.xr - s.xl) (s.xl + 1) ≤ s.xr then
        f.fillRuns depth s.xr s.row s.dy (s.xr + 2) (f.skip s.row t (s.xr - s.xl) (s.xl + 1))
          (f.skip s.row t (s.xr - s.xl) (s.xl + 1)) t stack
      else some (t, stack) := by
    simp only [fillSegment, hleft]
    exact if_pos (Nat.lt_succ_self s.xl)
  generalize f.skip s.row t (s.xr - s.xl) (s.xl + 1) = x' at hstep hgap hskip hgapclear hnext
  have hhit (c : Nat) : s.Hit (f.old t) c ↔
      x' ≤ s.xr ∧ Ahead (fun k => (k, s.row) ∈ f.old t) s.xr x' c := by
    rw [hit_iff hle, ahead_iff (fun k hk => old_lt hk) (Nat.le_refl s.xl)
      (fun k hk hk' => absurd hk' (Nat.not_lt.mpr hk)) (.inr hclear) hgap hgapclear]
    constructor
    · rintro (⟨hc, hrun⟩ | hc | hc)
      · exact absurd (hrun s.xl (Nat.le_of_lt hc) (Nat.le_refl _)) hclear
      · omega
      · exact hc
    · exact fun hc => .inr (.inr hc)
  by_cases hmore : x' ≤ s.xr
  · obtain ⟨t', pushed, hruns, hpainted, hpushes, horder⟩ :=
      fillRuns_spec s.dy s.xr hstops hlow (s.xr + 2) x' x' t hhigh hwidth (Nat.le_refl x')
        (by omega) (.inr (hnext (by omega))) (by omega)
    have hcolumns : s.Hit (f.old t) = Ahead (fun k => (k, s.row) ∈ f.old t) s.xr x' := by
      funext c
      rw [hhit]
      simp only [hmore, true_and]
    have hcolumns' : s.Hit (f.old t) = fun c => (x' ≤ c ∧ c < x') ∨
        Ahead (fun k => (k, s.row) ∈ f.old t) s.xr x' c := by
      funext c
      rw [hcolumns, eq_iff_iff]
      exact ⟨.inr, fun hc => hc.resolve_left (by omega)⟩
    rw [← hcolumns] at hpainted
    rw [← hcolumns'] at hpushes
    have hnoleak : leakLeft s s.xl = [] := if_neg (Nat.lt_irrefl _)
    refine ⟨t', pushed, fun depth stack => ?_, hpainted, ?_, ?_⟩
    · rw [hstep, if_pos hmore, hruns]
    · have hsweep : Sweep Set.univ (f.old t) s (leakLeft s s.xl ++ pushed) := by
        refine hpushes.sweep fun c hc => ⟨fun hc' => ?_, fun hc' => by omega⟩
        have := ((hhit c).mp hc').2.1
        omega
      rwa [hnoleak] at hsweep
    · have hends : (x', s.row) ∈ leftEnds (f.old t) := by
        refine ⟨hnext (by omega), .inr fun hx' => ?_⟩
        by_cases hxl : x' - 1 = s.xl
        · exact hclear (hxl ▸ hx')
        · exact hgapclear (x' - 1) (by omega) (by omega) hx'
      obtain ⟨onward, right, hpushed, htally⟩ :=
        horder.tally (Nat.le_refl x') hends (l := s.xl) fun hlt => absurd hlt (Nat.lt_irrefl _)
      rw [hnoleak] at hpushed htally
      exact ⟨[], onward, right, hpushed, htally⟩
  · have hnone (c : Nat) : ¬ s.Hit (f.old t) c := by
      rw [hhit]
      exact fun hc => hmore hc.1
    refine ⟨t, [], fun depth stack => ?_, ?_, ?_, [], [], [], rfl, ?_⟩
    · rw [hstep, if_neg hmore]
      rfl
    · have hempty : Row s.row (s.Hit (f.old t)) = ∅ :=
        Set.eq_empty_iff_forall_notMem.mpr fun p hp => hnone p.1 hp.2
      rw [hempty]
      exact painted_nil
    · exact ⟨by simp, by simp, by simp, by simp, fun c hc => absurd hc (hnone c),
        fun c hc => absurd hc (hnone c)⟩
    · exact ⟨by simp, by simp, .nil, by simp, by simp, by simp⟩

theorem fillSegment_run (hstops : f.Stops) (hs : Fits t s) (hold : (s.xl, s.row) ∈ f.old t) :
    ∃ t' pushed,
      (∀ depth stack, f.fillSegment depth s t stack =
        some (t', pushed.foldl (LUTFILL_PUSH depth t.getMaxZ) stack)) ∧
      f.Painted (Row s.row (s.Hit (f.old t))) t t' ∧ Sweep Set.univ (f.old t) s pushed ∧
      ∃ left onward right, pushed = left ++ onward ++ right ∧
        Tally (f.old t) s left onward right := by
  obtain ⟨hle, hwidth, hlow, hhigh⟩ := hs
  obtain ⟨left, t1, hfill, hleft, hpainted, hsub, hend⟩ :=
    fillLeft_spec hstops hlow (s.xl + 1) t hhigh (by omega)
  have hlt : left ≤ s.xl := by
    refine Nat.le_of_not_lt fun hgt => ?_
    obtain rfl : left = s.xl + 1 := by omega
    exact hend.elim (by omega) fun hclear => hclear hold
  have hmaxY := hpainted.getMaxY
  have hmaxZ := hpainted.getMaxZ
  obtain ⟨t', pushed, hruns, hpainted', hpushes, e, tail, right, hpushed, htail, hmem, hright,
    hback⟩ :=
    fillRuns_spec s.dy s.xr hstops hlow (s.xr + 2) (s.xl + 1) left t1 (by rwa [hmaxZ])
      (by rwa [hmaxY]) hleft (by omega) (.inl (by omega)) (by omega)
  have hhit (c : Nat) : s.Hit (f.old t) c ↔ (left ≤ c ∧ c < s.xl + 1) ∨
      Ahead (fun k => (k, s.row) ∈ f.old t1) s.xr (s.xl + 1) c := by
    rw [hit_iff hle, ahead_congr fun k hk => hpainted.old_beyond hstops hsub hk]
    constructor
    · rintro (⟨hc, hrun⟩ | ⟨hc, hrun⟩)
      · refine .inl ⟨Nat.le_of_not_lt fun hcl => ?_, by omega⟩
        exact hend.elim (by omega) fun hclear => hclear (hrun (left - 1) (by omega) (by omega))
      · by_cases hcx : c = s.xl
        · exact .inl ⟨by omega, by omega⟩
        · exact .inr ⟨by omega, fun k hk => hrun k (by omega)⟩
    · rintro (⟨hcl, hcx⟩ | ⟨hc, hrun⟩)
      · have hstrip (k : Nat) (hk : left ≤ k) (hk' : k < s.xl + 1) : (k, s.row) ∈ f.old t :=
          hsub ⟨rfl, hk, hk'⟩
        by_cases hc : c < s.xl
        · exact .inl ⟨hc, fun k hk hk' => hstrip k (by omega) (by omega)⟩
        · exact .inr ⟨by omega, fun k hk _ hk' => hstrip k (by omega) (by omega)⟩
      · refine .inr ⟨by omega, fun k hk hk' hk'' => ?_⟩
        by_cases hkx : k = s.xl
        · rwa [hkx]
        · exact hrun k (by omega) hk' hk''
  have hcolumns : (fun c => (left ≤ c ∧ c < s.xl + 1) ∨
      Ahead (fun k => (k, s.row) ∈ f.old t1) s.xr (s.xl + 1) c) = s.Hit (f.old t) :=
    funext fun c => propext (hhit c).symm
  rw [hcolumns] at hpushes
  have horder : RunOrder (f.old t) s.row s.dy s.xr (s.xl + 1) left pushed := by
    refine ⟨e, tail, right, hpushed, htail, fun p hp => ?_, hright, hback⟩
    obtain ⟨hp, hends⟩ := hmem p hp
    exact ⟨hp, (hpainted.leftEnds_beyond hstops hsub (by omega)).mp hends⟩
  refine ⟨t', leakLeft s left ++ pushed, fun depth stack => ?_, ?_, ?_, ?_⟩
  · rw [List.foldl_append, leakLeft_foldl, ← hmaxZ, ← hruns]
    rw [Span.row] at hfill
    simp only [fillSegment, hfill]
    exact if_neg (Nat.not_lt.mpr hlt)
  · rw [← hcolumns]
    exact hpainted.strip_ahead hstops hsub (Nat.le_refl _) hpainted'
  · refine hpushes.sweep fun c hc => ?_
    rw [hhit]
    constructor
    · rintro (hc' | hc')
      · exact hc'.1
      · have := hc'.1
        omega
    · exact fun hc' => .inl ⟨hc', by omega⟩
  · have hends : (left, s.row) ∈ leftEnds (f.old t) := ⟨hsub ⟨rfl, Nat.le_refl _, by omega⟩, hend⟩
    obtain ⟨onward, right, hpushed, htally⟩ := horder.tally hleft hends (l := left)
      fun hlt => hsub ⟨rfl, show left ≤ s.xl - 1 by omega, show s.xl - 1 < s.xl + 1 by omega⟩
    exact ⟨_, onward, right, hpushed, htally⟩

/-- A round fills the runs that reach under its segment and leaves the segments
of a sweep, in any stack and at any depth. -/
theorem fillSegment_spec (hstops : f.Stops) (hs : Fits t s) :
    ∃ t' pushed,
      (∀ depth stack, f.fillSegment depth s t stack =
        some (t', pushed.foldl (LUTFILL_PUSH depth t.getMaxZ) stack)) ∧
      f.Painted (Row s.row (s.Hit (f.old t))) t t' ∧ Sweep Set.univ (f.old t) s pushed ∧
      ∃ left onward right, pushed = left ++ onward ++ right ∧
        Tally (f.old t) s left onward right := by
  by_cases hold : (s.xl, s.row) ∈ f.old t
  · exact fillSegment_run hstops hs hold
  · exact fillSegment_skip hstops hs hold

end Segment

end MaskFill

end LARCmaCS
