import Mathlib.Logic.Relation
import Mathlib.Data.Set.Card
import Mathlib.Tactic.Common

/-!
# Scan-line seed fill

Fills the cells of a set `S` that are connected with an origin. A pending span
asks for the row next to it: every run of old cells that reaches below the
span is filled, and further spans are left behind. `Filling` is kept by every
such sweep (`Filling.sweep`); when nothing is pending, the filled cells are
the region of the origin (`Filling.filled_iff`). If the last span left behind
is swept first, there are never more than four spans pending above the number
of runs that are filled (`Budget.sweep`).
-/

namespace LARCmaCS.SeedFill

-- ---------------------------------------------------------------------------
-- Regions
-- ---------------------------------------------------------------------------

abbrev Cell := Nat × Int

def Beside (p q : Cell) : Prop := p.2 = q.2 ∧ (p.1 + 1 = q.1 ∨ q.1 + 1 = p.1)

def Above (p q : Cell) : Prop := p.1 = q.1 ∧ (p.2 + 1 = q.2 ∨ q.2 + 1 = p.2)

def Region (S : Set Cell) (o : Cell) : Set Cell :=
  {p | Relation.ReflTransGen (fun a b => b ∈ S ∧ (Beside a b ∨ Above a b)) o p}

section Region

variable {S : Set Cell} {o p q : Cell}

theorem region_origin : o ∈ Region S o := .refl

theorem region_beside (hp : p ∈ Region S o) (hq : q ∈ S) (hpq : Beside p q) : q ∈ Region S o :=
  .tail hp ⟨hq, .inl hpq⟩

theorem region_above (hp : p ∈ Region S o) (hq : q ∈ S) (hpq : Above p q) : q ∈ Region S o :=
  .tail hp ⟨hq, .inr hpq⟩

theorem region_subset (ho : o ∈ S) : Region S o ⊆ S := by
  intro p hp
  cases hp with
  | refl => exact ho
  | tail _ hstep => exact hstep.1

theorem region_row {a b : Nat} {r : Int} (ha : (a, r) ∈ Region S o)
    (hrow : ∀ k, min a b ≤ k → k ≤ max a b → (k, r) ∈ S) : (b, r) ∈ Region S o := by
  rcases Nat.le_total a b with hab | hab
  · induction b, hab using Nat.le_induction with
    | base => exact ha
    | succ b hab ih =>
      have hb := ih fun k hk hk' => hrow k (by omega) (by omega)
      exact region_beside hb (hrow (b + 1) (by omega) (by omega)) ⟨rfl, .inl rfl⟩
  · obtain ⟨d, rfl⟩ := Nat.exists_eq_add_of_le hab
    clear hab
    induction d generalizing b with
    | zero => exact ha
    | succ d ih =>
      have hsum : b + (d + 1) = b + 1 + d := by omega
      rw [hsum] at ha hrow
      have hb := ih ha fun k hk hk' => hrow k (by omega) (by omega)
      exact region_beside hb (hrow b (by omega) (by omega)) ⟨rfl, .inr rfl⟩

end Region

-- ---------------------------------------------------------------------------
-- Spans and sweeps
-- ---------------------------------------------------------------------------

/-- The columns from `xl` to `xr` of row `y`, asking for row `y + dy`. -/
structure Span where
  xl : Nat
  xr : Nat
  y : Int
  dy : Int
  deriving DecidableEq

namespace Span

def row (s : Span) : Int := s.y + s.dy

def Covers (s : Span) (c : Nat) : Prop := s.xl ≤ c ∧ c ≤ s.xr

/-- The column lies in a run of old cells of the asked row that reaches under
the span. -/
def Hit (s : Span) (old : Set Cell) (c : Nat) : Prop :=
  ∀ k, min c s.xr ≤ k → k ≤ max c s.xl → (k, s.row) ∈ old

/-- What is still old after the sweep for the span. -/
def swept (s : Span) (old : Set Cell) : Set Cell := {p | p ∈ old ∧ ¬ (p.2 = s.row ∧ s.Hit old p.1)}

end Span

/-- A sweep for `s` leaves spans of the swept row behind: onward under every
cell it filled, and back over those that are not under `s`. -/
structure Sweep (S old : Set Cell) (s : Span) (pushed : List Span) : Prop where
  le : ∀ p ∈ pushed, p.xl ≤ p.xr
  row : ∀ p ∈ pushed, p.y = s.row
  dir : ∀ p ∈ pushed, p.dy = s.dy ∨ p.dy = -s.dy
  hit : ∀ p ∈ pushed, ∀ c, p.Covers c → s.Hit old c
  onward : ∀ c, s.Hit old c → (c, s.row + s.dy) ∈ S → ∃ p ∈ pushed, p.dy = s.dy ∧ p.Covers c
  back : ∀ c, s.Hit old c → ¬ s.Covers c → (c, s.row - s.dy) ∈ S →
    ∃ p ∈ pushed, p.dy = -s.dy ∧ p.Covers c

/-- The cells that are filled, those of `S` that are not `old` any more, are
connected with `o`, fill their runs, and every old cell next to them in
another row is asked for. -/
structure Filling (S : Set Cell) (o : Cell) (old : Set Cell) (pending : List Span) : Prop where
  sub : old ⊆ S
  start : o ∈ S ∧ o ∉ old
  sound : ∀ p ∈ S, p ∉ old → p ∈ Region S o
  run : ∀ p ∈ S, p ∉ old → ∀ q ∈ old, ¬ Beside p q
  asked : ∀ p ∈ S, p ∉ old → ∀ q ∈ old, Above p q → ∃ s ∈ pending, s.row = q.2 ∧ s.Covers q.1
  le : ∀ s ∈ pending, s.xl ≤ s.xr
  source : ∀ s ∈ pending, ∀ c, s.Covers c → (c, s.y) ∈ S ∧ (c, s.y) ∉ old
  dir : ∀ s ∈ pending, s.dy = 1 ∨ s.dy = -1

section Sweep

variable {S old : Set Cell} {o p q : Cell} {s : Span} {pushed : List Span}

theorem Span.Hit.mem {c : Nat} (h : s.Hit old c) : (c, s.row) ∈ old :=
  h c (Nat.min_le_left ..) (Nat.le_max_left ..)

theorem Span.Hit.beside {c d : Nat} (h : s.Hit old c) (hcd : c + 1 = d ∨ d + 1 = c)
    (hd : (d, s.row) ∈ old) : s.Hit old d := by
  intro k hk hk'
  by_cases hkd : k = d
  · rwa [hkd]
  · exact h k (by omega) (by omega)

theorem not_mem_swept (hp : p ∈ old) (hp' : p ∉ s.swept old) : p.2 = s.row ∧ s.Hit old p.1 :=
  Classical.not_not.mp fun hne => hp' ⟨hp, hne⟩

theorem Span.Hit.region {c : Nat} (h : s.Hit old c) (hle : s.xl ≤ s.xr) (hsub : old ⊆ S)
    (hbase : ∀ d, s.Covers d → (d, s.row) ∈ old → (d, s.row) ∈ Region S o) :
    (c, s.row) ∈ Region S o := by
  have hd : s.Covers (max s.xl (min c s.xr)) := by
    constructor <;> omega
  refine region_row (hbase _ hd (h _ (by omega) (by omega))) fun k hk hk' => hsub (h k ?_ ?_)
  · omega
  · omega

theorem sweep_run (hrun : ∀ p ∈ S, p ∉ old → ∀ q ∈ old, ¬ Beside p q) :
    ∀ p ∈ S, p ∉ s.swept old → ∀ q ∈ s.swept old, ¬ Beside p q := by
  rintro p hpS hp q ⟨hq, hqhit⟩ hpq
  by_cases hold : p ∈ old
  · obtain ⟨hrow, hhit⟩ := not_mem_swept hold hp
    obtain ⟨hrow', hcol⟩ := hpq
    refine hqhit ⟨by rw [← hrow', hrow], hhit.beside hcol ?_⟩
    rwa [← hrow, hrow']
  · exact hrun p hpS hold q hq hpq

theorem sweep_sound (hsub : old ⊆ S) (hle : s.xl ≤ s.xr)
    (hbase : ∀ d, s.Covers d → (d, s.row) ∈ old → (d, s.row) ∈ Region S o)
    (hsound : ∀ p ∈ S, p ∉ old → p ∈ Region S o) :
    ∀ p ∈ S, p ∉ s.swept old → p ∈ Region S o := by
  intro p hpS hp
  by_cases hold : p ∈ old
  · obtain ⟨hrow, hhit⟩ := not_mem_swept hold hp
    have hregion := hhit.region hle hsub hbase
    rwa [← hrow] at hregion
  · exact hsound p hpS hold

/-- An old cell next to a newly filled one is asked for by the sweep's spans,
unless it lies over the span itself. -/
theorem Sweep.asked (h : Sweep S old s pushed) (hsub : old ⊆ S) (hdir : s.dy = 1 ∨ s.dy = -1)
    (hrow : p.2 = s.row) (hhit : s.Hit old p.1) (hq : q ∈ old) (hpq : Above p q) :
    (∃ t ∈ pushed, t.row = q.2 ∧ t.Covers q.1) ∨ q.2 = s.y ∧ s.Covers q.1 := by
  obtain ⟨hcol, hnext⟩ := hpq
  have hqS := hsub hq
  rw [← Prod.eta q, ← hcol] at hqS
  by_cases honward : q.2 = s.row + s.dy
  · rw [honward] at hqS
    obtain ⟨t, ht, htdy, htcovers⟩ := h.onward p.1 hhit hqS
    exact .inl ⟨t, ht, by rw [Span.row, h.row t ht, htdy, honward], by rwa [← hcol]⟩
  · have hback : q.2 = s.row - s.dy := by omega
    by_cases hcovers : s.Covers p.1
    · refine .inr ⟨?_, by rwa [← hcol]⟩
      rw [hback, Span.row]
      omega
    · rw [hback] at hqS
      obtain ⟨t, ht, htdy, htcovers⟩ := h.back p.1 hhit hcovers hqS
      refine .inl ⟨t, ht, ?_, by rwa [← hcol]⟩
      rw [Span.row, h.row t ht, htdy, hback]
      omega

theorem Sweep.source (h : Sweep S old s pushed) (hsub : old ⊆ S) :
    ∀ t ∈ pushed, ∀ c, t.Covers c → (c, t.y) ∈ S ∧ (c, t.y) ∉ s.swept old := by
  intro t ht c hc
  have hhit := h.hit t ht c hc
  rw [h.row t ht]
  exact ⟨hsub hhit.mem, fun hswept => hswept.2 ⟨rfl, hhit⟩⟩

end Sweep

-- ---------------------------------------------------------------------------
-- The fill
-- ---------------------------------------------------------------------------

section Filling

variable {S old : Set Cell} {o : Cell} {s : Span} {pushed rest pending : List Span}

theorem Filling.sweep (h : Filling S o old (s :: rest)) (hs : Sweep S old s pushed)
    (hpending : ∀ t, t ∈ pending ↔ t ∈ pushed ∨ t ∈ rest) : Filling S o (s.swept old) pending := by
  have hmem : s ∈ s :: rest := List.mem_cons_self
  have hsubset : s.swept old ⊆ old := fun _ hp => hp.1
  refine ⟨hsubset.trans h.sub, ⟨h.start.1, fun ho => h.start.2 ho.1⟩, ?_, sweep_run h.run, ?_, ?_, ?_,
    ?_⟩
  · refine sweep_sound h.sub (h.le s hmem) (fun d hd hold => ?_) h.sound
    -- the cells under the span are next to its own, which are filled
    obtain ⟨hdS, hdold⟩ := h.source s hmem d hd
    refine region_above (h.sound _ hdS hdold) (h.sub hold) ⟨rfl, ?_⟩
    have hdir := h.dir s hmem
    simp only [Span.row]
    omega
  · rintro p hpS hp q ⟨hq, hqhit⟩ hpq
    by_cases hold : p ∈ old
    · obtain ⟨hrow, hhit⟩ := not_mem_swept hold hp
      rcases hs.asked h.sub (h.dir s hmem) hrow hhit hq hpq with ⟨t, ht, hasked⟩ | ⟨hqrow, hqcovers⟩
      · exact ⟨t, (hpending t).mpr (.inl ht), hasked⟩
      · have hsource := (h.source s hmem q.1 hqcovers).2
        rw [← hqrow] at hsource
        exact absurd hq hsource
    · obtain ⟨t, ht, hrow, hcovers⟩ := h.asked p hpS hold q hq hpq
      rcases List.mem_cons.mp ht with rfl | ht
      · refine absurd ⟨hrow.symm, fun k hk hk' => ?_⟩ hqhit
        obtain rfl : k = q.1 := by
          have := hcovers.1
          have := hcovers.2
          omega
        rwa [hrow]
      · exact ⟨t, (hpending t).mpr (.inr ht), hrow, hcovers⟩
  · intro t ht
    rcases (hpending t).mp ht with ht | ht
    · exact hs.le t ht
    · exact h.le t (List.mem_cons_of_mem _ ht)
  · intro t ht c hc
    rcases (hpending t).mp ht with ht | ht
    · exact hs.source h.sub t ht c hc
    · obtain ⟨hcS, hcold⟩ := h.source t (List.mem_cons_of_mem _ ht) c hc
      exact ⟨hcS, fun hswept => hcold hswept.1⟩
  · intro t ht
    rcases (hpending t).mp ht with ht | ht
    · have hdir := h.dir s hmem
      rcases hs.dir t ht with hdy | hdy <;> omega
    · exact h.dir t (List.mem_cons_of_mem _ ht)

/-- The first sweep, for a span of the origin's column that asks for its cell;
the span on the other side of the origin is pending. -/
theorem Filling.first {c : Nat} {r : Int} (ho : (c, r) ∈ S)
    (hs : Sweep S S ⟨c, c, r + 1, -1⟩ pushed)
    (hpushed : ∀ t, t ∈ pending → t ∈ pushed ∨ t = ⟨c, c, r, 1⟩) (hmem : ∀ t ∈ pushed, t ∈ pending)
    (hother : (c, r + 1) ∈ S → ⟨c, c, r, 1⟩ ∈ pending) :
    Filling S (c, r) (Span.swept ⟨c, c, r + 1, -1⟩ S) pending := by
  have hrow : Span.row ⟨c, c, r + 1, -1⟩ = r := by
    simp only [Span.row]
    omega
  have hhit : Span.Hit ⟨c, c, r + 1, -1⟩ S c := by
    intro k hk hk'
    simp only [Nat.min_self, Nat.max_self] at hk hk'
    obtain rfl : k = c := Nat.le_antisymm hk' hk
    rwa [hrow]
  have ho' : (c, r) ∉ Span.swept ⟨c, c, r + 1, -1⟩ S := fun hswept => hswept.2 ⟨hrow.symm, hhit⟩
  refine ⟨fun _ hp => hp.1, ⟨ho, ho'⟩, ?_,
    sweep_run fun p hp hp' => absurd hp hp', ?_, ?_, ?_, ?_⟩
  · refine sweep_sound subset_rfl (Nat.le_refl c) (fun d hd _ => ?_)
      fun p hp hp' => absurd hp hp'
    obtain rfl : d = c := Nat.le_antisymm hd.2 hd.1
    rw [hrow]
    exact region_origin
  · rintro p hpS hp q ⟨hq, hqhit⟩ hpq
    obtain ⟨hprow, hphit⟩ := not_mem_swept hpS hp
    rcases hs.asked subset_rfl (.inr rfl) hprow hphit hq hpq with ⟨t, ht, hasked⟩ | ⟨hqrow, hqcovers⟩
    · exact ⟨t, hmem t ht, hasked⟩
    · obtain rfl : q = (c, r + 1) := Prod.ext (Nat.le_antisymm hqcovers.2 hqcovers.1) hqrow
      exact ⟨_, hother hq, rfl, hqcovers⟩
  · intro t ht
    rcases hpushed t ht with ht | rfl
    · exact hs.le t ht
    · exact Nat.le_refl c
  · intro t ht d hd
    rcases hpushed t ht with ht | rfl
    · exact hs.source subset_rfl t ht d hd
    · obtain rfl : d = c := Nat.le_antisymm hd.2 hd.1
      exact ⟨ho, ho'⟩
  · intro t ht
    rcases hpushed t ht with ht | rfl
    · rcases hs.dir t ht with hdy | hdy <;> simp only at hdy <;> omega
    · exact .inl rfl

/-- With nothing pending, exactly the region of the origin is filled. -/
theorem Filling.filled_iff (h : Filling S o old []) (p : Cell) (hp : p ∈ S) :
    p ∉ old ↔ p ∈ Region S o := by
  refine ⟨h.sound p hp, fun hregion => ?_⟩
  clear hp
  suffices p ∈ S ∧ p ∉ old from this.2
  induction hregion with
  | refl => exact h.start
  | @tail a b _ hab ih =>
    obtain ⟨haS, ha⟩ := ih
    refine ⟨hab.1, fun hb => ?_⟩
    rcases hab.2 with hbeside | habove
    · exact h.run a haS ha b hb hbeside
    · obtain ⟨t, ht, -⟩ := h.asked a haS ha b hb habove
      cases ht

end Filling

-- ---------------------------------------------------------------------------
-- How many spans are pending
-- ---------------------------------------------------------------------------

/-- The cells of `S` that a run along a row starts with. -/
def leftEnds (S : Set Cell) : Set Cell := {p | p ∈ S ∧ (p.1 = 0 ∨ (p.1 - 1, p.2) ∉ S)}

theorem leftEnds_subset {S : Set Cell} : leftEnds S ⊆ S := fun _ hp => hp.1

/-- The spans of a sweep in the order they are left behind: at most one back
to the left, one onward for every run it fills, at most one back to the
right, where it lies next to `s`. -/
structure Tally (old : Set Cell) (s : Span) (left onward right : List Span) : Prop where
  left_le : left.length ≤ 1
  leak : ∀ p ∈ left, (s.xl - 1, s.row) ∈ old
  increasing : onward.Pairwise fun p q => p.xl < q.xl
  ends : ∀ p ∈ onward, (p.xl, s.row) ∈ leftEnds old
  right_le : right.length ≤ 1
  back : ∀ p ∈ right, p.xl = s.xr + 1 ∧ p.row = s.y

/-- At most three spans more are pending than runs are filled, or four if the
next one has nothing on its left. -/
def Budget (S old : Set Cell) (pending : List Span) : Prop :=
  pending.length ≤ (leftEnds S \ old).ncard + 3 ∨
    pending.length ≤ (leftEnds S \ old).ncard + 4 ∧
      ∀ s ∈ pending.head?, (s.xl - 1, s.row) ∉ old

section Budget

variable {S old : Set Cell} {o : Cell} {s : Span} {left onward right rest pending : List Span}

theorem Tally.filter (h : Tally old s left onward right) (p : Span → Bool) :
    Tally old s (left.filter p) (onward.filter p) (right.filter p) where
  left_le := (List.length_filter_le p left).trans h.left_le
  leak := fun q hq => h.leak q (List.mem_of_mem_filter hq)
  increasing := h.increasing.filter p
  ends := fun q hq => h.ends q (List.mem_of_mem_filter hq)
  right_le := (List.length_filter_le p right).trans h.right_le
  back := fun q hq => h.back q (List.mem_of_mem_filter hq)

theorem Budget.length_le (h : Budget S old pending) :
    pending.length ≤ (leftEnds S \ old).ncard + 4 := by
  rcases h with h | h
  · exact Nat.le_succ_of_le h
  · exact h.1

/-- Old runs are runs of `S`: nothing next to them in their row is filled. -/
theorem Filling.leftEnds_old (h : Filling S o old pending) : leftEnds old ⊆ leftEnds S := by
  rintro ⟨c, r⟩ ⟨hold, hend⟩
  refine ⟨h.sub hold, or_iff_not_imp_left.mpr fun hc hS => ?_⟩
  exact h.run _ hS (hend.resolve_left hc) _ hold ⟨rfl, .inl (Nat.succ_pred_eq_of_ne_zero hc)⟩

theorem Filling.ncard_le (h : Filling S o old pending) (hS : S.Finite) :
    (leftEnds S \ old).ncard ≤ (leftEnds (Region S o)).ncard := by
  have hregion : Region S o ⊆ S := region_subset h.start.1
  refine Set.ncard_le_ncard ?_ (hS.subset (leftEnds_subset.trans hregion))
  rintro p ⟨⟨hpS, hend⟩, hp⟩
  exact ⟨h.sound p hpS hp, hend.imp_right fun hclear hq => hclear (hregion hq)⟩

/-- A sweep fills a run for each span that it leaves onward. -/
theorem Tally.ncard_swept (h : Tally old s left onward right) (hS : S.Finite)
    (hends : leftEnds old ⊆ leftEnds S) (hs : Sweep S old s (left ++ onward ++ right)) :
    (leftEnds S \ old).ncard + onward.length ≤ (leftEnds S \ s.swept old).ncard := by
  classical
  have hhit : ∀ p ∈ onward, s.Hit old p.xl := by
    intro p hp
    have hmem : p ∈ left ++ onward ++ right := by simp [hp]
    exact hs.hit p hmem p.xl ⟨Nat.le_refl _, hs.le p hmem⟩
  set starts : Finset Cell := (onward.map fun p => (p.xl, s.row)).toFinset with hstarts
  have hmem {q : Cell} : q ∈ starts ↔ ∃ p ∈ onward, (p.xl, s.row) = q := by
    rw [hstarts, List.mem_toFinset, List.mem_map]
  have hcard : (starts : Set Cell).ncard = onward.length := by
    rw [Set.ncard_coe_finset, hstarts, List.toFinset_card_of_nodup, List.length_map]
    refine List.pairwise_map.mpr (h.increasing.imp fun hlt heq => ?_)
    exact Nat.ne_of_lt hlt (congrArg Prod.fst heq)
  have hfinite : (leftEnds S).Finite := hS.subset leftEnds_subset
  rw [← hcard, ← Set.ncard_union_eq ?_ (hfinite.subset Set.sdiff_subset) starts.finite_toSet]
  · refine Set.ncard_le_ncard ?_ (hfinite.subset Set.sdiff_subset)
    rintro q (⟨hq, hold⟩ | hq)
    · exact ⟨hq, fun hswept => hold hswept.1⟩
    · obtain ⟨p, hp, rfl⟩ := hmem.mp hq
      exact ⟨hends (h.ends p hp), fun hswept => hswept.2 ⟨rfl, hhit p hp⟩⟩
  · rw [Set.disjoint_left]
    rintro q ⟨-, hold⟩ hq
    obtain ⟨p, hp, rfl⟩ := hmem.mp hq
    exact hold (h.ends p hp).1

/-- A sweep that leaves a span back on either side puts the right one on top,
and that one does not reach to the left again. -/
theorem Budget.sweep (h : Budget S old (s :: rest)) (hfilling : Filling S o old (s :: rest))
    (hS : S.Finite) (hs : Sweep S old s (left ++ onward ++ right))
    (ht : Tally old s left onward right) :
    Budget S (s.swept old) ((left ++ onward ++ right).reverse ++ rest) := by
  have hcount := ht.ncard_swept hS hfilling.leftEnds_old hs
  have hleft := ht.left_le
  have hright := ht.right_le
  simp only [Budget, List.length_append, List.length_reverse, List.length_cons] at h ⊢
  match hr : right with
  | [] =>
    left
    rcases h with h | ⟨h, hnone⟩
    · simp only [List.length_nil]
      omega
    · have hnil : left = [] := List.eq_nil_iff_forall_not_mem.mpr fun p hp =>
        hnone s rfl (ht.leak p hp)
      simp only [hnil, List.length_nil]
      omega
  | p :: right' =>
    simp only [List.length_cons] at hright ⊢
    obtain rfl : right' = [] := List.length_eq_zero_iff.mp (by omega)
    have hp : (p.xl - 1, p.row) ∉ s.swept old := by
      obtain ⟨hcolumn, hrow⟩ := ht.back p List.mem_cons_self
      have hle := hfilling.le s List.mem_cons_self
      rw [hcolumn, hrow, Nat.add_sub_cancel]
      exact fun hswept =>
        (hfilling.source s List.mem_cons_self s.xr ⟨hle, Nat.le_refl _⟩).2 hswept.1
    rcases h with h | ⟨h, hnone⟩
    · refine .inr ⟨?_, ?_⟩
      · simp only [List.length_nil]
        omega
      · simpa using hp
    · have hnil : left = [] := List.eq_nil_iff_forall_not_mem.mpr fun p hp =>
        hnone s rfl (ht.leak p hp)
      refine .inr ⟨?_, ?_⟩
      · simp only [hnil, List.length_nil]
        omega
      · simpa using hp

theorem Budget.first (hS : S.Finite) (hs : Sweep S S s (left ++ onward ++ right))
    (ht : Tally S s left onward right) (hrest : rest.length ≤ 1) :
    Budget S (s.swept S) ((left ++ onward ++ right).reverse ++ rest) := by
  have hcount := ht.ncard_swept hS subset_rfl hs
  have hleft := ht.left_le
  have hright := ht.right_le
  left
  simp only [List.length_append, List.length_reverse]
  omega

end Budget

end LARCmaCS.SeedFill
