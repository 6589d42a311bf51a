import Mathlib.Data.Int.ModEq
import Mathlib.Algebra.Order.Ring.Rat
import LARCmaCS.Lib.Loop
import LARCmaCS.CMPattern.Pattern

/-!
# What findPattern finds

The code of a pattern has room for eight colours, so of longer patterns only
the last eight are compared (`colorCode_eq_iff`). What the search finds has the
markers' colours exactly if no pattern that agrees in the last eight alone beats
all those that agree in every colour (`findsColors_iff`).
-/

namespace LARCmaCS.CMPattern

open CMVision (Raw8 Region)

-- ---------------------------------------------------------------------------
-- Pattern codes
-- ---------------------------------------------------------------------------

theorem colorCode_succ (n : Nat) (ids : Nat → Raw8) :
    colorCode (n + 1) ids = (colorCode n ids <<< 8) ||| (ids n).setWidth 64 := by
  rw [colorCode, List.range_succ, List.foldl_append, List.foldl_cons, List.foldl_nil, colorCode]

theorem getLsbD_colorCode (n : Nat) (ids : Nat → Raw8) {b : Nat} (hb : b < 64) :
    (colorCode n ids).getLsbD b =
      (decide (b / 8 < n) && (ids (n - 1 - b / 8)).getLsbD (b % 8)) := by
  induction n generalizing b with
  | zero => simp [colorCode]
  | succ n ih =>
    rw [colorCode_succ, BitVec.getLsbD_or, BitVec.getLsbD_shiftLeft, BitVec.getLsbD_setWidth]
    rcases Nat.lt_or_ge b 8 with hlow | hhigh
    · have hdiv : b / 8 = 0 := by omega
      have hmod : b % 8 = b := by omega
      simp [hb, hlow, hdiv, hmod]
    · have hdiv : (b - 8) / 8 = b / 8 - 1 := by omega
      have hmod : (b - 8) % 8 = b % 8 := by omega
      have hplace : n - 1 - (b / 8 - 1) = n + 1 - 1 - b / 8 := by omega
      have hroom : b / 8 - 1 < n ↔ b / 8 < n + 1 := by omega
      rw [ih (by omega), hdiv, hmod, hplace, BitVec.getLsbD_of_ge (ids n) b hhigh]
      simp [hb, Nat.not_lt.mpr hhigh, hroom]

/-- Codes of `n` colours are equal exactly if the last eight colours are. -/
theorem colorCode_eq_iff {n : Nat} {ids ids' : Nat → Raw8} :
    colorCode n ids = colorCode n ids' ↔ ∀ k < n, n ≤ k + 8 → ids k = ids' k := by
  constructor
  · intro h k hk hlast
    apply BitVec.eq_of_getLsbD_eq
    intro j hj
    have hbit := congrArg (·.getLsbD (8 * (n - 1 - k) + j)) h
    have hdiv : (8 * (n - 1 - k) + j) / 8 = n - 1 - k := by omega
    have hmod : (8 * (n - 1 - k) + j) % 8 = j := by omega
    have hplace : n - 1 - (n - 1 - k) = k := by omega
    have hroom : n - 1 - k < n := by omega
    simp only [getLsbD_colorCode n _ (show 8 * (n - 1 - k) + j < 64 by omega), hdiv, hmod, hplace,
      hroom, decide_true, Bool.true_and] at hbit
    exact hbit
  · intro h
    apply BitVec.eq_of_getLsbD_eq
    intro b hb
    rw [getLsbD_colorCode n _ hb, getLsbD_colorCode n _ hb]
    rcases Nat.lt_or_ge (b / 8) n with hin | hout
    · rw [h (n - 1 - b / 8) (by omega) (by omega)]
    · simp [Nat.not_lt.mpr hout]

-- ---------------------------------------------------------------------------
-- roll and the heights
-- ---------------------------------------------------------------------------

theorem foldl_update {α : Type*} (place : Nat → Nat) (arr out : Nat → α) (n : Nat)
    (hplace : ∀ i < n, ∀ j < n, place i = place j → i = j) {i : Nat} (hi : i < n) :
    (List.range n).foldl (fun out i => Function.update out (place i) (arr i)) out (place i) =
      arr i := by
  induction n with
  | zero => exact absurd hi (Nat.not_lt_zero i)
  | succ n ih =>
    rw [List.range_succ, List.foldl_append, List.foldl_cons, List.foldl_nil]
    rcases Nat.lt_succ_iff_lt_or_eq.mp hi with hlt | rfl
    · have hne : place i ≠ place n := fun heq =>
        absurd (hplace i hi n n.lt_succ_self heq) (Nat.ne_of_lt hlt)
      rw [Function.update_of_ne hne]
      exact ih (fun i hi j hj => hplace i (Nat.lt_succ_of_lt hi) j (Nat.lt_succ_of_lt hj)) hlt
    · exact Function.update_self ..

theorem rotate_place {num ofs k : Nat} (hofs : ofs < num) (hk : k < num) :
    ((k + ofs) % num + (num - ofs)) % num = k := by
  have hsum : (k + ofs) % num + (num - ofs) ≡ k + ofs + (num - ofs) [MOD num] :=
    (Nat.mod_modEq _ _).add_right _
  have hround : k + ofs + (num - ofs) = k + num := by omega
  rw [hsum, hround, Nat.add_mod_right, Nat.mod_eq_of_lt hk]

/-- Position `k` holds what stood `ofs` places further on, cyclically. -/
theorem roll_spec {α : Type*} (arr : Nat → α) {num ofs : Nat} (hnum : num ≤ MaxMarkers)
    (hofs : ofs < num) :
    ∃ arr', roll arr num (num - ofs) = some arr' ∧
      ∀ k < num, arr' k = arr ((k + ofs) % num) := by
  rcases Nat.eq_zero_or_pos ofs with rfl | hpos
  · refine ⟨arr, ?_, fun k hk => by rw [Nat.add_zero, Nat.mod_eq_of_lt hk]⟩
    simp [roll]
  · obtain ⟨d, hd⟩ : ∃ d, d = num - ofs := ⟨_, rfl⟩
    have hcast : (num : Int) - ofs = (d : Nat) := by omega
    have hsmall : (d : Int).tmod num = d := Int.tmod_eq_of_lt (by omega) (by omega)
    have hround : ((d : Int) + num).tmod num = d := by
      rw [Int.tmod_eq_emod_of_nonneg (by omega), Int.add_emod_right,
        Int.emod_eq_of_lt (by omega) (by omega)]
    have hplace (i : Nat) : (((i : Int) + d).tmod num).toNat = (i + d) % num := by
      rw [Int.tmod_eq_emod_of_nonneg (by omega)]
      exact_mod_cast Int.toNat_natCast ((i + d) % num)
    have hdistinct (i : Nat) (hi : i < num) (j : Nat) (hj : j < num)
        (heq : (i + d) % num = (j + d) % num) : i = j :=
      (Nat.ModEq.add_right_cancel' d heq).eq_of_lt_of_lt hi hj
    refine ⟨(List.range num).foldl (fun out i => Function.update out ((i + d) % num) (arr i)) arr,
      ?_, fun k hk => ?_⟩
    · rw [roll, hcast]
      simp only [hsmall, hround, hplace]
      rw [if_neg (by omega), if_pos hnum]
    · have hat := foldl_update (fun i => (i + d) % num) arr arr num hdistinct
        (Nat.mod_lt (k + ofs) (Nat.zero_lt_of_lt hofs))
      have hk : ((k + ofs) % num + d) % num = k := by rw [hd, rotate_place hofs hk]
      rwa [hk] at hat

theorem fixHeights_spec {K : Type*} [Field K] (image2field : Camera K) (markers : Nat → Marker K)
    {n : Nat} (hreg : ∀ i < n, (markers i).reg ≠ none) :
    ∃ markers', fixHeights image2field markers n = some markers' ∧
      ∀ i < n, (markers i).fixHeight image2field = some (markers' i) := by
  have hloop : ∃ markers', fixHeights image2field markers n = some markers' ∧
      (∀ i < n, (markers i).fixHeight image2field = some (markers' i)) ∧
        ∀ i, n ≤ i → markers' i = markers i := by
    refine Loop.invariant (P := fun k (t : Nat → Marker K) =>
        (∀ i < k, (markers i).fixHeight image2field = some (t i)) ∧ ∀ i, k ≤ i → t i = markers i)
      ⟨fun i hi => absurd hi (Nat.not_lt_zero i), fun _ _ => rfl⟩ fun k hk t ⟨hfixed, hrest⟩ => ?_
    obtain ⟨reg, hr⟩ := Option.ne_none_iff_exists'.mp (hreg k hk)
    obtain ⟨m, hm⟩ : ∃ m, (markers k).fixHeight image2field = some m :=
      ⟨_, by rw [Marker.fixHeight, hr, Option.map_some]⟩
    refine ⟨Function.update t k m, ?_, fun i hi => ?_, fun i hi => ?_⟩
    · rw [hrest k (Nat.le_refl k), hm]
      rfl
    · rcases Nat.lt_succ_iff_lt_or_eq.mp hi with hlt | rfl
      · rw [Function.update_of_ne (Nat.ne_of_lt hlt), hfixed i hlt]
      · rw [Function.update_self, hm]
    · rw [Function.update_of_ne (by omega), hrest i (by omega)]
  obtain ⟨markers', hfix, hfixed, -⟩ := hloop
  exact ⟨markers', hfix, hfixed⟩

-- ---------------------------------------------------------------------------
-- The search
-- ---------------------------------------------------------------------------

variable {K : Type*}

/-- The pattern's colours are those of the `n` markers from `ofs` on. -/
def SameColors (p : Pattern K) (markers : Nat → Marker K) (n ofs : Nat) : Prop :=
  ∀ k < n, (p.markers k).id = (markers ((k + ofs) % n)).id

def SameLastColors (p : Pattern K) (markers : Nat → Marker K) (n ofs : Nat) : Prop :=
  ∀ k < n, n ≤ k + 8 → (p.markers k).id = (markers ((k + ofs) % n)).id

theorem SameColors.last {p : Pattern K} {ofs : Nat} (h : SameColors p markers n ofs) :
    SameLastColors p markers n ofs := fun k hk _ => h k hk

theorem SameColors.of_rotated [Field K] {image2field : Camera K} {p : Pattern K}
    {markers markers' : Nat → Marker K} {n ofs ofs' : Nat} (h : SameColors p markers n ofs')
    (hrotated : ∀ k < n, (markers ((k + ofs) % n)).fixHeight image2field = some (markers' k))
    (hrotated' : ∀ k < n, (markers ((k + ofs') % n)).fixHeight image2field = some (markers' k)) :
    SameColors p markers n ofs := by
  intro k hk
  have hid {m m' : Marker K} (hm : m.fixHeight image2field = some m') : m.id = m'.id := by
    obtain ⟨reg, -, rfl⟩ := Option.map_eq_some_iff.mp hm
    rfl
  rw [h k hk, hid (hrotated k hk), hid (hrotated' k hk)]

/-- The code is computed from the colours of the markers. -/
def Pattern.Coded (p : Pattern K) : Prop :=
  ∀ n : Nat, p.num_markers = n → p.pattern = colorCode n fun k => (p.markers k).id

namespace MultiPatternModel

variable (model : MultiPatternModel K) (markers : Nat → Marker K) (n : Nat)

/-- Pattern `i` is the enabled pattern `p` of `n` markers, and `ofs` a rotation. -/
structure Candidate (i ofs : Nat) (p : Pattern K) : Prop where
  rotation : ofs < n
  pattern : model.patterns[i]? = some p
  enabled : p.enabled = true
  num_markers : p.num_markers = n

def codeMatches (ofs i : Nat) : Bool :=
  match model.patterns[i]? with
  | some p => p.enabled && decide (p.num_markers = n ∧
      p.pattern = colorCode n fun k => (markers ((k + ofs) % n)).id)
  | none => false

/-- The pairs of a pattern and a rotation whose error is computed, in the
order of the search. -/
def candidates : List (Nat × Nat) :=
  (List.range n).flatMap fun ofs =>
    ((List.range model.patterns.length).filter (model.codeMatches markers n ofs)).map (·, ofs)

def Precedes (c d : Nat × Nat) : Prop := c.2 < d.2 ∨ c.2 = d.2 ∧ c.1 < d.1

theorem pairwise_candidates : (model.candidates markers n).Pairwise Precedes := by
  rw [candidates, List.pairwise_flatMap]
  constructor
  · intro ofs _
    rw [List.pairwise_map]
    exact (List.pairwise_lt_range.sublist List.filter_sublist).imp fun h => .inr ⟨rfl, h⟩
  · refine List.pairwise_lt_range.imp fun {a b} hab c hc d hd => .inl ?_
    obtain ⟨_, -, rfl⟩ := List.mem_map.mp hc
    obtain ⟨_, -, rfl⟩ := List.mem_map.mp hd
    exact hab

theorem mem_candidates {i ofs : Nat} :
    (i, ofs) ∈ model.candidates markers n ↔ ∃ p, model.Candidate n i ofs p ∧
      p.pattern = colorCode n fun k => (markers ((k + ofs) % n)).id := by
  simp only [candidates, List.mem_flatMap, List.mem_range, List.mem_map, List.mem_filter,
    Prod.mk.injEq, codeMatches]
  constructor
  · rintro ⟨ofs, hofs, i, ⟨-, hmatch⟩, rfl, rfl⟩
    cases hp : model.patterns[i]? with
    | none => simp [hp] at hmatch
    | some p =>
      simp only [hp, Bool.and_eq_true, decide_eq_true_eq] at hmatch
      obtain ⟨henabled, hnum, hcode⟩ := hmatch
      exact ⟨p, ⟨hofs, hp, henabled, hnum⟩, hcode⟩
  · rintro ⟨p, ⟨hofs, hp, henabled, hnum⟩, hcode⟩
    refine ⟨ofs, hofs, i, ⟨(List.getElem?_eq_some_iff.mp hp).1, ?_⟩, rfl, rfl⟩
    simp [hp, henabled, hnum, hcode]

variable {model markers n} in
theorem mem_candidates_iff (hcoded : ∀ p ∈ model.patterns, p.Coded) {i ofs : Nat} :
    (i, ofs) ∈ model.candidates markers n ↔
      ∃ p, model.Candidate n i ofs p ∧ SameLastColors p markers n ofs := by
  rw [mem_candidates]
  refine exists_congr fun p => and_congr_right fun hp => ?_
  rw [hcoded p (List.mem_of_getElem? hp.pattern) n hp.num_markers, colorCode_eq_iff]
  rfl

variable [Field K] (fit_params : PatternFitParameters K)

def fitError (c : Nat × Nat) : K :=
  match model.patterns[c.1]? with
  | some p => calcFitError p.markers markers n c.2 fit_params
  | none => 0

variable [LinearOrder K]

theorem searchPatterns_eq (best : Best K) (ofs : Nat) :
    model.searchPatterns markers n fit_params best ofs =
      (((List.range model.patterns.length).filter (model.codeMatches markers n ofs)).map
        (·, ofs)).foldl (FirstBest.keep (model.fitError markers n fit_params)) best := by
  rw [List.foldl_map, List.foldl_filter, searchPatterns]
  congr 1
  funext best i
  rw [FirstBest.keep, codeMatches, fitError]
  cases model.patterns[i]? with
  | none => rfl
  | some p => simp only [Bool.and_eq_true, decide_eq_true_eq, ite_and]

theorem search_eq_scan :
    model.search markers n fit_params =
      FirstBest.scan (model.fitError markers n fit_params) (sq fit_params.fit_max_error)
        (model.candidates markers n) := by
  rw [search, FirstBest.scan, candidates, List.foldl_flatMap]
  congr 1
  funext best ofs
  exact model.searchPatterns_eq markers n fit_params best ofs

-- ---------------------------------------------------------------------------
-- What is found
-- ---------------------------------------------------------------------------

/-- What is said of the result: a rotation under which all colours agree, an
error that is minimal among those pairs, and the rotated markers, with their
locations computed anew. -/
structure Found (image2field : Camera K) (idx : Nat) (markers' : Nat → Marker K) (ofs : Nat)
    (p : Pattern K) : Prop where
  candidate : model.Candidate n idx ofs p
  colors : SameColors p markers n ofs
  minimal : ∀ i ofs' q, model.Candidate n i ofs' q → SameColors q markers n ofs' →
    calcFitError p.markers markers n ofs fit_params ≤
      calcFitError q.markers markers n ofs' fit_params
  below : calcFitError p.markers markers n ofs fit_params < sq fit_params.fit_max_error
  rotated : ∀ i < n, (markers ((i + ofs) % n)).fixHeight image2field = some (markers' i)

def FindsColors (math : Math K) (image2field : Camera K) : Prop :=
  ∀ result markers',
    model.findPattern math image2field markers n fit_params = some (true, result, markers') →
    ∃ ofs p, model.Found markers n fit_params image2field result.idx markers' ofs p

/-- Of the candidates whose last eight colours agree, the search comes upon one
that agrees in all colours with less or the same error first. -/
def ColorsWin : Prop :=
  ∀ i ofs p, model.Candidate n i ofs p → SameLastColors p markers n ofs →
    ¬SameColors p markers n ofs →
    calcFitError p.markers markers n ofs fit_params < sq fit_params.fit_max_error →
    ∃ j ofs' q, model.Candidate n j ofs' q ∧ SameColors q markers n ofs' ∧
      (calcFitError q.markers markers n ofs' fit_params <
          calcFitError p.markers markers n ofs fit_params ∨
        calcFitError q.markers markers n ofs' fit_params =
            calcFitError p.markers markers n ofs fit_params ∧
          (ofs' < ofs ∨ ofs' = ofs ∧ j < i))

variable {model markers n fit_params}

omit [LinearOrder K] in
theorem Candidate.fitError {i ofs : Nat} {p : Pattern K} (h : model.Candidate n i ofs p) :
    model.fitError markers n fit_params (i, ofs) =
      calcFitError p.markers markers n ofs fit_params := by
  simp only [MultiPatternModel.fitError, h.pattern]

/-- What the search ends with agrees in all colours exactly if the colours win. -/
theorem search_agrees_iff (hcoded : ∀ p ∈ model.patterns, p.Coded) :
    (∀ c, (model.search markers n fit_params).1 = some c →
        ∃ p, model.patterns[c.1]? = some p ∧ SameColors p markers n c.2) ↔
      model.ColorsWin markers n fit_params := by
  have horder (c d : Nat × Nat) (hcd : Precedes c d) : ¬Precedes d c := by
    simp only [Precedes] at hcd ⊢
    omega
  rw [search_eq_scan, FirstBest.forall_scan_iff horder (model.pairwise_candidates markers n)]
  constructor
  · intro h i ofs p hp hlast hdiffer hbelow
    have hbad : ¬∃ q, model.patterns[i]? = some q ∧ SameColors q markers n ofs := by
      rintro ⟨q, hq, hcolors⟩
      rw [hp.pattern] at hq
      obtain rfl := Option.some.inj hq
      exact hdiffer hcolors
    obtain ⟨⟨j, ofs'⟩, hd, ⟨q, hq, hcolors⟩, hbeats⟩ :=
      h (i, ofs) ((mem_candidates_iff hcoded).mpr ⟨p, hp, hlast⟩) hbad (by rwa [hp.fitError])
    obtain ⟨q', hq', -⟩ := (mem_candidates_iff hcoded).mp hd
    obtain rfl : q' = q := Option.some.inj (hq'.pattern.symm.trans hq)
    rw [FirstBest.Beats, hq'.fitError, hp.fitError] at hbeats
    exact ⟨j, ofs', q', hq', hcolors, hbeats⟩
  · rintro h ⟨i, ofs⟩ hc hbad hbelow
    obtain ⟨p, hp, hlast⟩ := (mem_candidates_iff hcoded).mp hc
    rw [hp.fitError] at hbelow
    obtain ⟨j, ofs', q, hq, hcolors, hbeats⟩ :=
      h i ofs p hp hlast (fun hcolors => hbad ⟨p, hp.pattern, hcolors⟩) hbelow
    refine ⟨(j, ofs'), (mem_candidates_iff hcoded).mpr ⟨q, hq, hcolors.last⟩,
      ⟨q, hq.pattern, hcolors⟩, ?_⟩
    rw [FirstBest.Beats, hq.fitError, hp.fitError]
    exact hbeats

theorem findPattern_of_search (math : Math K) (image2field : Camera K) (hn : n ≤ MaxMarkers)
    (hreg : ∀ i < n, (markers i).reg ≠ none) {i ofs : Nat} {p : Pattern K}
    (hp : model.Candidate n i ofs p)
    (hsearch : (model.search markers n fit_params).1 = some (i, ofs)) :
    ∃ result markers',
      model.findPattern math image2field markers n fit_params = some (true, result, markers') ∧
        result.idx = i ∧
        ∀ k < n, (markers ((k + ofs) % n)).fixHeight image2field = some (markers' k) := by
  obtain ⟨fixed, hfix, hfixed⟩ := fixHeights_spec image2field markers hreg
  obtain ⟨markers', hroll, hrolled⟩ := roll_spec fixed hn hp.rotation
  rcases hs : model.search markers n fit_params with ⟨best, sse⟩
  rw [hs] at hsearch
  obtain rfl : best = some (i, ofs) := hsearch
  simp only [findPattern, hs, hp.pattern, hfix, hroll, Option.bind_eq_bind, Option.bind_some]
  refine ⟨_, _, rfl, rfl, fun k hk => ?_⟩
  rw [hrolled k hk]
  exact hfixed _ (Nat.mod_lt _ (Nat.zero_lt_of_lt hk))

/-- `findPattern` finds a pattern of the markers' colours exactly if the colours win. -/
theorem findsColors_iff (math : Math K) (image2field : Camera K) (hn : n ≤ MaxMarkers)
    (hreg : ∀ i < n, (markers i).reg ≠ none) (hcoded : ∀ p ∈ model.patterns, p.Coded) :
    model.FindsColors markers n fit_params math image2field ↔
      model.ColorsWin markers n fit_params := by
  have hspec {i ofs : Nat} (hsearch : (model.search markers n fit_params).1 = some (i, ofs)) :
      (∃ p, model.Candidate n i ofs p) ∧
        model.fitError markers n fit_params (i, ofs) < sq fit_params.fit_max_error ∧
        ∀ d ∈ model.candidates markers n, d = (i, ofs) ∨
          FirstBest.Beats Precedes (model.fitError markers n fit_params) (i, ofs) d := by
    rw [search_eq_scan] at hsearch
    obtain ⟨-, hmem, hbelow, hbest⟩ :=
      FirstBest.scan_some (model.pairwise_candidates markers n) hsearch
    obtain ⟨p, hp, -⟩ := (mem_candidates_iff hcoded).mp hmem
    exact ⟨⟨p, hp⟩, hbelow, hbest⟩
  rw [← search_agrees_iff hcoded]
  constructor
  · rintro h ⟨i, ofs⟩ hsearch
    obtain ⟨⟨p, hp⟩, -, -⟩ := hspec hsearch
    obtain ⟨result, markers', hfind, rfl, hrotated⟩ :=
      findPattern_of_search math image2field hn hreg hp hsearch
    obtain ⟨ofs', q, hfound⟩ := h result markers' hfind
    exact ⟨q, hfound.candidate.pattern, hfound.colors.of_rotated hrotated hfound.rotated⟩
  · intro h result markers' hfind
    cases hsearch : (model.search markers n fit_params).1 with
    | none =>
      rcases hs : model.search markers n fit_params with ⟨best, sse⟩
      rw [hs] at hsearch
      obtain rfl : best = none := hsearch
      simp [findPattern, hs] at hfind
    | some c =>
      obtain ⟨i, ofs⟩ := c
      obtain ⟨⟨p, hp⟩, hbelow, hbest⟩ := hspec hsearch
      obtain ⟨result', markers'', hfind', rfl, hrotated⟩ :=
        findPattern_of_search math image2field hn hreg hp hsearch
      obtain ⟨rfl, rfl⟩ : result' = result ∧ markers'' = markers' := by
        simpa [hfind'] using hfind
      obtain ⟨q, hq, hcolors⟩ := h _ hsearch
      obtain rfl : q = p := Option.some.inj (hq.symm.trans hp.pattern)
      rw [hp.fitError] at hbelow
      refine ⟨ofs, q, hp, hcolors, fun j ofs' r hr hrcolors => ?_, hbelow, hrotated⟩
      have hmem := (mem_candidates_iff hcoded).mpr ⟨r, hr, hrcolors.last⟩
      rw [← hp.fitError, ← hr.fitError]
      rcases hbest _ hmem with heq | hless | ⟨heq, -⟩
      · rw [heq]
      · exact hless.le
      · exact heq.le

/-- Up to eight markers the colours always win. -/
theorem colorsWin_of_le_eight (hn : n ≤ 8) : model.ColorsWin markers n fit_params := by
  intro i ofs p _ hlast hdiffer _
  exact absurd (fun k hk => hlast k hk (by omega)) hdiffer

theorem findPattern_of_last (math : Math K) (image2field : Camera K) (hn : n ≤ MaxMarkers)
    (hreg : ∀ i < n, (markers i).reg ≠ none) (hcoded : ∀ p ∈ model.patterns, p.Coded)
    {i ofs : Nat} {p : Pattern K} (hp : model.Candidate n i ofs p)
    (hlast : SameLastColors p markers n ofs)
    (hbelow : calcFitError p.markers markers n ofs fit_params < sq fit_params.fit_max_error) :
    ∃ result markers',
      model.findPattern math image2field markers n fit_params = some (true, result, markers') := by
  have hmem := (mem_candidates_iff hcoded).mpr ⟨p, hp, hlast⟩
  cases hsearch : (model.search markers n fit_params).1 with
  | none =>
    rw [search_eq_scan] at hsearch
    have hle := (FirstBest.scan_none hsearch).2 _ hmem
    rw [hp.fitError] at hle
    exact absurd hbelow (not_lt.mpr hle)
  | some c =>
    obtain ⟨j, ofs'⟩ := c
    have hfound := hsearch
    rw [search_eq_scan] at hfound
    obtain ⟨-, hc, -⟩ := FirstBest.scan_some (model.pairwise_candidates markers n) hfound
    obtain ⟨q, hq, -⟩ := (mem_candidates_iff hcoded).mp hc
    obtain ⟨result, markers', hfind, -⟩ :=
      findPattern_of_search math image2field hn hreg hq hsearch
    exact ⟨result, markers', hfind⟩

def markersFrom (first : Raw8) (k : Nat) : Marker Rat where
  area := 1
  id := if k = 0 then first else 2
  reg := some ⟨2, 0, 0, 3, 3, 3 / 2, 3 / 2, 16, 0, 0⟩
  loc := .zero
  height := 140
  conf := 1
  dist := 1
  angle := 0
  next_angle_dist := 1
  next_dist := 1
  next := none

def patternFrom (first : Raw8) (n : Nat) : Pattern Rat where
  enabled := true
  markers := markersFrom first
  num_markers := n
  marker_mean := .zero
  pattern := colorCode n fun k => (markersFrom first k).id
  height := 140
  robot_id := 3

theorem coded_patternFrom (first : Raw8) (n : Nat) :
    ∀ p ∈ [patternFrom first n], p.Coded := by
  intro p hp m hm
  obtain rfl := List.mem_singleton.mp hp
  obtain rfl : n = m := Int.natCast_inj.mp hm
  rfl

def unitFit : PatternFitParameters Rat := { PatternFitParameters.reset with fit_max_error := 1 }

def modelFrom (first : Raw8) (n : Nat) : MultiPatternModel Rat :=
  ⟨[patternFrom first n], (ColorsUsed.clear 32).use first |>.use 2⟩

def parallelCamera : Camera Rat := fun p _ => p

theorem findsColors_iff_rotated :
    FindsColors (modelFrom 1 3) (fun k => markersFrom 1 ((k + 1) % 3)) 3 unitFit mathAtZero
        parallelCamera ∧
      ∃ result markers', findPattern (modelFrom 1 3) mathAtZero parallelCamera
        (fun k => markersFrom 1 ((k + 1) % 3)) 3 unitFit = some (true, result, markers') := by
  refine ⟨(findsColors_iff _ _ (by decide) (fun _ _ => Option.some_ne_none _)
    (coded_patternFrom 1 3)).mpr (colorsWin_of_le_eight (by decide)), ?_⟩
  have hp : Candidate (modelFrom 1 3) 3 0 2 (patternFrom 1 3) := ⟨by decide, rfl, rfl, rfl⟩
  refine findPattern_of_last mathAtZero parallelCamera (by decide)
    (fun _ _ => Option.some_ne_none _) (coded_patternFrom 1 3) hp (fun k hk _ => ?_) ?_
  · obtain rfl | rfl | rfl : k = 0 ∨ k = 1 ∨ k = 2 := by omega
    all_goals rfl
  · simp [calcFitError, deviation, sq, patternFrom, markersFrom, unitFit]

/-- Nine markers of which only the first has another colour. -/
theorem not_findsColors_nine :
    ¬FindsColors (modelFrom 1 9) (markersFrom 3) 9 unitFit mathAtZero parallelCamera := by
  intro h
  have hp : Candidate (modelFrom 1 9) 9 0 0 (patternFrom 1 9) := ⟨by decide, rfl, rfl, rfl⟩
  have hlast : SameLastColors (patternFrom 1 9) (markersFrom 3) 9 0 := by
    intro k hk hlast
    have hne : k ≠ 0 := by omega
    simp [patternFrom, markersFrom, Nat.mod_eq_of_lt hk, hne]
  have hbelow : calcFitError (patternFrom 1 9).markers (markersFrom 3) 9 0 unitFit <
      sq unitFit.fit_max_error := by
    simp [calcFitError, deviation, sq, patternFrom, markersFrom, unitFit]
  obtain ⟨result, markers', hfind⟩ := findPattern_of_last mathAtZero parallelCamera (by decide)
    (fun _ _ => Option.some_ne_none _) (coded_patternFrom 1 9) hp hlast hbelow
  obtain ⟨ofs, p, hfound⟩ := h result markers' hfind
  obtain rfl : p = patternFrom 1 9 :=
    List.mem_singleton.mp (List.mem_of_getElem? hfound.candidate.pattern)
  have hfirst := hfound.colors 0 (by decide)
  simp only [patternFrom, markersFrom, if_true] at hfirst
  split at hfirst <;> exact absurd hfirst (by decide)

end MultiPatternModel

end LARCmaCS.CMPattern
