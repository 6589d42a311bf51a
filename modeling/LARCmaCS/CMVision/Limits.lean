import Mathlib.Algebra.GroupWithZero.Nat
import Mathlib.Tactic.Common
import LARCmaCS.CMVision.Connect
import LARCmaCS.CMVision.Extract

/-!
# The limit of the run buffer

`processRuns` is the run part of `processThresholded`. It keeps within a
buffer of `maxRuns` entries, and its result does not depend on what the
buffer held, exactly for the images of at least two rows that need fewer than
`maxRuns` runs (`runsSafe_iff`): the cursors of `connectComponents` read the
entry behind the used runs, and its search for the second row has no end in
an image of one row.
-/

namespace LARCmaCS.CMVision

open UnionFind

def processRuns (tmap : Image) (runlist : RunList) (reglist : RegionList) :
    Option (RegionList × RunList) := do
  let runlist ← encodeRuns tmap runlist
  let runlist ← connectComponents runlist
  extractRegions reglist runlist

/-- In every buffer of `maxRuns` entries the three passes stay within the
buffer, and what they leave does not depend on what it held. -/
def RunsSafe (tmap : Image) (maxRuns : Nat) : Prop :=
  ∀ reglist : RegionList, 0 < reglist.maxRegions →
    ∀ l s : RunList, l.maxRuns = maxRuns → s.maxRuns = maxRuns →
      ∃ reg l' s', processRuns tmap l reglist = some (reg, l') ∧
        processRuns tmap s reglist = some (reg, s') ∧ l'.Agree l'.usedRuns s'

-- ---------------------------------------------------------------------------
-- How many runs an image needs
-- ---------------------------------------------------------------------------

/-- A run ends at this pixel: the colour changes behind it, or the row does,
where a run is kept even if it is clear. -/
def Image.EndsRun (tmap : Image) (y c : Nat) : Prop :=
  c + 1 = tmap.width ∨ tmap.pixel c y ≠ 0 ∧ tmap.pixel (c + 1) y ≠ tmap.pixel c y

instance (tmap : Image) (y c : Nat) : Decidable (tmap.EndsRun y c) :=
  inferInstanceAs (Decidable (_ ∨ _))

def Image.rowRuns (tmap : Image) (y x : Nat) : Nat :=
  (List.range' x (tmap.width - x)).countP fun c => tmap.EndsRun y c

def Image.runCount (tmap : Image) : Nat :=
  ((List.range tmap.height).map fun y => tmap.rowRuns y 0).sum

theorem RunFrom.rowRuns {tmap : Image} {x y stop : Nat} (h : RunFrom tmap x y stop) :
    tmap.rowRuns y x =
      (if tmap.pixel x y ≠ 0 ∨ stop = tmap.width then 1 else 0) + tmap.rowRuns y stop := by
  obtain ⟨hpos, hinside, hcolor, hmaximal⟩ := h
  obtain ⟨len, rfl⟩ : ∃ len, stop = x + len + 1 := ⟨stop - x - 1, by omega⟩
  have hsplit : List.range' x (tmap.width - x) =
      List.range' x len ++ [x + len] ++ List.range' (x + len + 1) (tmap.width - (x + len + 1)) := by
    rw [← List.range'_1_concat, Nat.add_assoc, List.range'_append_1]
    congr 1
    omega
  have hbefore : (List.range' x len).countP (fun c => tmap.EndsRun y c) = 0 := by
    rw [List.countP_eq_zero]
    intro c hc
    rw [List.mem_range'_1] at hc
    have hsame : tmap.pixel (c + 1) y = tmap.pixel c y := by
      rw [hcolor (c + 1) (by omega) (by omega), hcolor c (by omega) (by omega)]
    simp only [Image.EndsRun, hsame, ne_eq, not_true_eq_false, and_false, or_false, decide_eq_true_eq]
    omega
  have hend : tmap.EndsRun y (x + len) ↔ tmap.pixel x y ≠ 0 ∨ x + len + 1 = tmap.width := by
    rw [Image.EndsRun, hcolor (x + len) (by omega) (by omega)]
    constructor
    · rintro (hwidth | ⟨hclear, -⟩)
      · exact .inr hwidth
      · exact .inl hclear
    · rintro (hclear | hwidth)
      · exact hmaximal.imp_right fun hne => ⟨hclear, hne⟩
      · exact .inl hwidth
  rw [Image.rowRuns, hsplit, List.countP_append, List.countP_append, hbefore, List.countP_singleton]
  simp only [decide_eq_true_eq, hend, Nat.zero_add]
  rfl

def RunList.fill (l : RunList) (f : Nat → Run) (j j' : Nat) : RunList :=
  { l with runs := fun k => if j ≤ k ∧ k < j' then f k else l.runs k }

theorem RunList.fill_self (l : RunList) (f : Nat → Run) (j : Nat) : l.fill f j j = l := by
  have hempty (k : Nat) : ¬ (j ≤ k ∧ k < j) := by omega
  simp only [fill, hempty, if_false]

theorem RunList.fill_put (l : RunList) (f : Nat → Run) {j j' : Nat} (r : Run) (hj : j < j') :
    (l.put j r).fill f (j + 1) j' = l.fill (Function.update f j r) j j' := by
  simp only [fill, put, mk.injEq, and_true]
  funext k
  by_cases hk : k = j
  · subst hk
    rw [if_neg (by omega), if_pos ⟨Nat.le_refl k, hj⟩, Function.update_self, Function.update_self]
  · have hiff : j + 1 ≤ k ∧ k < j' ↔ j ≤ k ∧ k < j' := by omega
    simp only [hiff, Function.update_of_ne hk]

theorem encodeRow_fill {tmap : Image} {y m : Nat} (n x j : Nat) (hx : x ≤ tmap.width)
    (hn : tmap.width ≤ x + n) (hj : j < m) :
    ∃ f j' full, j ≤ j' ∧
      (if full then j' = m ∧ m ≤ j + tmap.rowRuns y x else j' < m ∧ j' = j + tmap.rowRuns y x) ∧
      ∀ l : RunList, l.maxRuns = m → encodeRow tmap y n x l j = some (l.fill f j j', j', full) := by
  have hdone : tmap.rowRuns y tmap.width = 0 := by simp [Image.rowRuns]
  induction n generalizing x j with
  | zero =>
    obtain rfl : x = tmap.width := by omega
    exact ⟨fun _ => ⟨0, 0, 0, 0, 0, 0⟩, j, false, Nat.le_refl j, by simp [hdone, hj], fun l _ => by
      simp [encodeRow, RunList.fill_self]⟩
  | succ n ih =>
    by_cases hlt : x < tmap.width
    · have hrun := runFrom_runEnd (y := y) hlt
      have hcount := hrun.rowRuns
      have hpos := hrun.pos
      have hinside := hrun.inside
      simp only [encodeRow, if_pos hlt]
      generalize runEnd tmap y (tmap.pixel x y) (tmap.width - x) x = stop at *
      by_cases hkeep : tmap.pixel x y ≠ 0 ∨ stop = tmap.width
      · simp only [if_pos hkeep] at hcount ⊢
        generalize (⟨x, y, stop - x, tmap.pixel x y, j, 0⟩ : Run) = r
        have hwrite (l : RunList) (hl : l.maxRuns = m) : l.write j r = some (l.put j r) :=
          RunList.write_of_lt (by omega) r
        by_cases hfull : m ≤ j + 1
        · refine ⟨Function.update (fun _ => r) j r, j + 1, true, by omega, by simp; omega,
            fun l hl => ?_⟩
          rw [hwrite l hl, Option.bind_eq_bind, Option.bind_some, RunList.put_maxRuns,
            if_pos (by omega), ← RunList.fill_put _ _ _ (by omega), RunList.fill_self]
        · obtain ⟨f, j', full, hle, hcount', hrow⟩ :=
            ih stop (j + 1) hinside (by omega) (Nat.lt_of_not_le hfull)
          refine ⟨Function.update f j r, j', full, by omega, ?_, fun l hl => ?_⟩
          · rwa [hcount, ← Nat.add_assoc]
          · rw [hwrite l hl, Option.bind_eq_bind, Option.bind_some, RunList.put_maxRuns,
              if_neg (by omega), hrow (l.put j r) hl, RunList.fill_put _ _ _ (by omega)]
      · simp only [if_neg hkeep] at hcount ⊢
        obtain ⟨f, j', full, hle, hfull, hrow⟩ := ih stop j hinside (by omega) hj
        exact ⟨f, j', full, hle, by rwa [hcount, Nat.zero_add], hrow⟩
    · obtain rfl : x = tmap.width := by omega
      exact ⟨fun _ => ⟨0, 0, 0, 0, 0, 0⟩, j, false, Nat.le_refl j, by simp [hdone, hj], fun l _ => by
        simp [encodeRow, RunList.fill_self]⟩

theorem RunList.fill_fill (l : RunList) (f g : Nat → Run) {j j' j'' : Nat} (hj : j ≤ j')
    (hj' : j' ≤ j'') :
    (l.fill f j j').fill g j' j'' = l.fill (fun k => if k < j' then f k else g k) j j'' := by
  simp only [fill, mk.injEq, and_true]
  funext k
  by_cases hk : k < j'
  · rw [if_neg (by omega), if_pos hk]
    by_cases hjk : j ≤ k
    · rw [if_pos ⟨hjk, hk⟩, if_pos ⟨hjk, by omega⟩]
    · rw [if_neg (by omega), if_neg (by omega)]
  · rw [if_neg hk]
    by_cases hk' : k < j''
    · rw [if_pos ⟨by omega, hk'⟩, if_pos ⟨by omega, hk'⟩]
    · rw [if_neg (by omega), if_neg (by omega), if_neg (by omega)]

theorem encodeRows_fill (tmap : Image) {m : Nat} (n y j : Nat) (hj : j < m) :
    ∃ f j', j ≤ j' ∧ j' = min m (j + ((List.range' y n).map fun y => tmap.rowRuns y 0).sum) ∧
      ∀ l : RunList, l.maxRuns = m → encodeRows tmap n y l j = some (l.fill f j j', j') := by
  induction n generalizing y j with
  | zero => exact ⟨fun _ => ⟨0, 0, 0, 0, 0, 0⟩, j, Nat.le_refl j, by simp; omega, fun l _ => by
      simp [encodeRows, RunList.fill_self]⟩
  | succ n ih =>
    rw [List.range'_succ, List.map_cons, List.sum_cons]
    obtain ⟨f, j', full, hle, hcount, hrow⟩ :=
      encodeRow_fill (y := y) tmap.width 0 j (Nat.zero_le _) (Nat.le_add_left _ _) hj
    cases full with
    | true =>
      simp only [if_true] at hcount
      exact ⟨f, j', hle, by omega, fun l hl => by simp [encodeRows, hrow l hl]⟩
    | false =>
      simp only [Bool.false_eq_true, if_false] at hcount
      obtain ⟨g, j'', hle', hcount', hrows⟩ := ih (y + 1) j' hcount.1
      refine ⟨fun k => if k < j' then f k else g k, j'', by omega, by omega, fun l hl => ?_⟩
      simp only [encodeRows, hrow l hl, Option.bind_eq_bind, Option.bind_some, Bool.false_eq_true,
        if_false]
      rw [hrows (l.fill f j j') hl, RunList.fill_fill _ _ _ hle hle']

/-- `encodeRuns` writes what the image needs, as far as the buffer reaches,
whatever the buffer holds. -/
theorem encodeRuns_fill (tmap : Image) {m : Nat} (hm : 0 < m) :
    ∃ f : Nat → Run, ∀ l : RunList, l.maxRuns = m → encodeRuns tmap l = some
      ⟨fun k => if k < min m tmap.runCount then f k else l.runs k, m, min m tmap.runCount⟩ := by
  obtain ⟨f, j', -, hcount, hrows⟩ := encodeRows_fill tmap tmap.height 0 0 hm
  rw [Nat.zero_add, ← List.range_eq_range', ← Image.runCount] at hcount
  subst hcount
  exact ⟨f, fun l hl => by simp [encodeRuns, hrows l hl, RunList.fill, hl]⟩

-- ---------------------------------------------------------------------------
-- The entry behind the used runs
-- ---------------------------------------------------------------------------

theorem RunList.setParent_maxRuns {l l' : RunList} {i p : Nat} (h : l.setParent i p = some l') :
    l'.maxRuns = l.maxRuns := by
  simp only [setParent, read, write, Option.bind_eq_bind, Option.bind_eq_some_iff,
    Option.ite_none_right_eq_some, Option.some.injEq] at h
  obtain ⟨-, -, -, rfl⟩ := h
  rfl

namespace Sweep

theorem link_frame {t t' : Sweep} {q p : Nat} (h : t.link q p = some t') :
    t'.l1 = t.l1 ∧ t'.map.maxRuns = t.map.maxRuns := by
  simp only [link, Option.bind_eq_bind, Option.bind_eq_some_iff, Option.some.injEq] at h
  obtain ⟨map, hmap, map', hmap', map'', hmap'', rfl⟩ := h
  refine ⟨rfl, ?_⟩
  rw [RunList.setParent_maxRuns hmap'', RunList.setParent_maxRuns hmap',
    RunList.setParent_maxRuns hmap]

theorem visit_frame {t t' : Sweep} (h : t.visit = some t') :
    t'.l1 = t.l1 ∧ t'.map.maxRuns = t.map.maxRuns := by
  rw [visit] at h
  split at h
  · rw [connect] at h
    split at h
    · simp only [Option.bind_eq_bind, Option.bind_eq_some_iff, Option.some.injEq] at h
      obtain ⟨map, hmap, rfl⟩ := h
      exact ⟨rfl, RunList.setParent_maxRuns hmap⟩
    · split at h
      · simp only [Option.bind_eq_bind, Option.bind_eq_some_iff] at h
        obtain ⟨i, -, j, -, h⟩ := h
        split at h
        · exact link_frame h
        · exact link_frame h
      · cases h
        exact ⟨rfl, rfl⟩
  · cases h
    exact ⟨rfl, rfl⟩

theorem advance_frame {t t' : Sweep} (h : t.advance = some t') (h1 : t.l1 < t.map.maxRuns) :
    t'.l1 < t'.map.maxRuns ∧ t'.map.maxRuns = t.map.maxRuns := by
  have hnext1 {t t' : Sweep} (h : t.next1 = some t') :
      t'.l1 < t'.map.maxRuns ∧ t'.map.maxRuns = t.map.maxRuns := by
    simp only [next1, RunList.read, Option.bind_eq_bind, Option.bind_eq_some_iff,
      Option.ite_none_right_eq_some, Option.some.injEq] at h
    obtain ⟨-, ⟨hlt, -⟩, rfl⟩ := h
    exact ⟨hlt, rfl⟩
  have hnext2 {t t' : Sweep} (h : t.next2 = some t') :
      t'.l1 = t.l1 ∧ t'.map.maxRuns = t.map.maxRuns := by
    simp only [next2, Option.bind_eq_bind, Option.bind_eq_some_iff, Option.some.injEq] at h
    obtain ⟨-, -, rfl⟩ := h
    exact ⟨rfl, rfl⟩
  simp only [advance, Option.bind_eq_bind, Option.bind_eq_some_iff] at h
  obtain ⟨t1, ht1, h⟩ := h
  have hfirst : t1.l1 < t1.map.maxRuns ∧ t1.map.maxRuns = t.map.maxRuns := by
    split at ht1
    · exact hnext1 ht1
    · cases ht1
      exact ⟨h1, rfl⟩
  split at h
  · obtain ⟨hl1, hmax⟩ := hnext2 h
    exact ⟨by omega, by omega⟩
  · cases h
    exact hfirst

/-- With every entry used, the first cursor reads behind the buffer before the
loop can end. -/
theorem loop_full {num : Nat} (n : Nat) {t : Sweep} (h1 : t.l1 < t.map.maxRuns)
    (hnum : t.map.maxRuns ≤ num) : loop num n t = none := by
  induction n generalizing t with
  | zero => exact if_pos (by omega)
  | succ n ih =>
    rw [loop, if_pos (by omega)]
    cases hvisit : t.visit with
    | none => rfl
    | some t1 =>
      rw [Option.bind_eq_bind, Option.bind_some]
      obtain ⟨hl1, hmax⟩ := visit_frame hvisit
      cases hadvance : t1.advance with
      | none => rfl
      | some t2 =>
        obtain ⟨h2, hmax'⟩ := advance_frame hadvance (by omega)
        exact ih h2 (by omega)

end Sweep

theorem skipFirstLine_lt {map : RunList} (n : Nat) {l1 l : Nat} (h : skipFirstLine map n l1 = some l) :
    l < map.maxRuns := by
  induction n generalizing l1 with
  | zero => cases h
  | succ n ih =>
    simp only [skipFirstLine, RunList.read, Option.bind_eq_bind, Option.bind_eq_some_iff,
      Option.ite_none_right_eq_some, Option.some.injEq] at h
    obtain ⟨r, ⟨hlt, -⟩, h⟩ := h
    split at h
    · exact ih h
    · cases h
      exact hlt

theorem connectComponents_full {map : RunList} (h : map.maxRuns ≤ map.usedRuns) :
    connectComponents map = none := by
  simp only [connectComponents, Option.bind_eq_bind, Option.bind_eq_none_iff]
  intro l1 hskip r1 _ r2 _ map' hloop
  rw [Sweep.loop_full _ (skipFirstLine_lt _ hskip) h] at hloop
  cases hloop

/-- The search for the second row reads behind a buffer that has none. -/
theorem skipFirstLine_none {map : RunList} (h : ∀ k < map.maxRuns, (map.runs k).y = 0) (n l1 : Nat) :
    skipFirstLine map n l1 = none := by
  induction n generalizing l1 with
  | zero => rfl
  | succ n ih =>
    rw [skipFirstLine, RunList.read]
    split
    · rename_i hlt
      simp [h l1 hlt, ih]
    · rfl

-- ---------------------------------------------------------------------------
-- The three passes
-- ---------------------------------------------------------------------------

theorem Touch.color {runs : Nat → Run} {n i k : Nat} (h : Relation.EqvGen (Touch runs n) i k) :
    (runs i).color = (runs k).color :=
  eqvGen_le (F := fun i k => (runs i).color = (runs k).color)
    ⟨fun _ => rfl, Eq.symm, Eq.trans⟩ (fun _ _ ht => ht.connects.1.symm) h

theorem touch_congr {runs runs' : Nat → Run} {n : Nat} (h : ∀ k < n, runs' k = runs k) {b a : Nat}
    (ht : Touch runs n b a) : Touch runs' n b a := by
  obtain ⟨hb, ha, hrow, hconnects⟩ := ht
  exact ⟨hb, ha, by rwa [h a ha, h b hb], by rwa [h a ha, h b hb]⟩

theorem connectComponents_agree {tmap : Image} {l s : RunList} (hheight : 2 ≤ tmap.height)
    (hl : Encoded tmap l.runs l.usedRuns 0 tmap.height)
    (hs : Encoded tmap s.runs s.usedRuns 0 tmap.height) (hused : l.usedRuns < l.maxRuns)
    (h : l.Agree l.usedRuns s) :
    ∃ l' s', connectComponents l = some l' ∧ connectComponents s = some s' ∧
      l'.usedRuns = l.usedRuns ∧ l'.maxRuns = l.maxRuns ∧ Rooted l'.runs l.usedRuns ∧
      l'.Agree l.usedRuns s' := by
  obtain ⟨q, p, hconnect, hordered, hnames, hroot⟩ := connectComponents_spec hheight hl hused
  obtain ⟨q', p', hconnect', hordered', hnames', hroot'⟩ :=
    connectComponents_spec hheight hs (by rw [h.usedRuns, h.maxRuns]; exact hused)
  rw [h.usedRuns] at hnames' hroot'
  have hnames'' : Names (root p') (Touch l.runs l.usedRuns) := by
    refine hnames'.congr (fun b a ht => .rel _ _ ?_) fun b a ht => .rel _ _ ?_
    · exact touch_congr (fun k hk => (h.runs k hk).symm) ht
    · exact touch_congr h.runs ht
  refine ⟨_, _, hconnect, hconnect', rfl, rfl, ⟨fun k hk _ => ?_, fun k hk hcolor => ?_⟩,
    h.maxRuns, h.usedRuns, fun k hk => ?_⟩
  · show q k ≤ k
    rw [hroot k hk]
    exact root_le p k
  · have hsame : Relation.EqvGen (Touch l.runs l.usedRuns) (root p k) k :=
      (hnames _ _).mp (root_root hordered k)
    simp only [RunList.withParents, hroot k hk] at hcolor ⊢
    rwa [Touch.color hsame]
  · simp only [RunList.withParents, h.runs k hk]
    rw [hroot k hk, hroot' k hk, root_unique hordered hordered' hnames hnames'']

theorem not_runsSafe {tmap : Image} {m : Nat} (l : RunList) (hl : l.maxRuns = m)
    (hnone : ∀ encoded, encodeRuns tmap l = some encoded → connectComponents encoded = none) :
    ¬ RunsSafe tmap m := by
  intro hsafe
  obtain ⟨reg, l', s', hrun, -⟩ :=
    hsafe ⟨fun _ => ⟨0, 0, 0, 0, 0, 0, 0, 0, 0, 0⟩, 1, 0⟩ Nat.one_pos l l hl hl
  simp only [processRuns, Option.bind_eq_bind, Option.bind_eq_some_iff] at hrun
  obtain ⟨encoded, hencode, connected, hconnect, -⟩ := hrun
  rw [hnone encoded hencode] at hconnect
  cases hconnect

/-- The passes are safe exactly for images of at least two rows whose runs
leave an entry of the buffer free. -/
theorem runsSafe_iff (tmap : Image) (m : Nat) (hwidth : 1 ≤ tmap.width) (hm : 1 ≤ m) :
    RunsSafe tmap m ↔ 2 ≤ tmap.height ∧ tmap.runCount < m := by
  obtain ⟨f, hencode⟩ := encodeRuns_fill tmap hm
  generalize hn : min m tmap.runCount = n at hencode
  have hencoded (hcount : tmap.runCount < m) (l : RunList) (hl : l.maxRuns = m) :
      Encoded tmap (fun k => if k < n then f k else l.runs k) n 0 tmap.height := by
    obtain ⟨l', hl', hmax, hspec⟩ := encodeRuns_spec hwidth l (by omega)
    obtain rfl := Option.some.inj ((hencode l hl).symm.trans hl')
    exact hspec (show n < m by omega)
  constructor
  · intro hsafe
    have hcount : tmap.runCount < m := by
      refine Nat.lt_of_not_le fun hle => not_runsSafe ⟨f, m, 0⟩ rfl (fun encoded he => ?_) hsafe
      obtain rfl := Option.some.inj ((hencode _ rfl).symm.trans he)
      exact connectComponents_full (show m ≤ n by omega)
    refine ⟨Nat.le_of_not_lt fun hrow => ?_, hcount⟩
    -- a buffer that holds only runs of row 0
    refine not_runsSafe ⟨fun _ => ⟨0, 0, 0, 0, 0, 0⟩, m, 0⟩ rfl (fun encoded he => ?_) hsafe
    have hruns := hencoded hcount ⟨fun _ => ⟨0, 0, 0, 0, 0, 0⟩, m, 0⟩ rfl
    obtain rfl := Option.some.inj ((hencode _ rfl).symm.trans he)
    rw [connectComponents, skipFirstLine_none]
    · rfl
    · intro k hk
      by_cases hfill : k < n
      · exact Nat.lt_one_iff.mp (Nat.lt_of_lt_of_le (hruns.row_lt hfill) (Nat.le_of_lt_succ hrow))
      · exact congrArg Run.y (if_neg hfill)
  · rintro ⟨hheight, hcount⟩ reglist hregs l s hl hs
    have hnm : n < m := by omega
    obtain ⟨l', s', hconnect, hconnect', hused, hmax, hrooted, hagree'⟩ :=
      connectComponents_agree (l := ⟨fun k => if k < n then f k else l.runs k, m, n⟩)
        (s := ⟨fun k => if k < n then f k else s.runs k, m, n⟩) hheight (hencoded hcount l hl)
        (hencoded hcount s hs) hnm ⟨rfl, rfl, fun k hk => (if_pos hk).trans (if_pos hk).symm⟩
    have hle : l'.usedRuns ≤ l'.maxRuns := by
      rw [hused, hmax]
      exact Nat.le_of_lt hnm
    rw [← hused] at hrooted hagree'
    obtain ⟨reg, l'', hextract, hused', hextract'⟩ := extractRegions_spec hrooted hle hregs
    obtain ⟨s'', hextract'', hagree''⟩ := hextract' s' hagree'
    refine ⟨reg, l'', s'', ?_, ?_, by rwa [hused']⟩
    · simp [processRuns, hencode l hl, hconnect, hextract]
    · simp [processRuns, hencode s hs, hconnect', hextract'']

theorem runsSafe_iff_two_rows : RunsSafe ⟨2, 2, fun k => [1, 0, 1, 1].getD k 0⟩ 4 :=
  (runsSafe_iff ⟨2, 2, fun k => [1, 0, 1, 1].getD k 0⟩ 4 (by decide) (by decide)).mpr
    ⟨by decide, by decide⟩

theorem not_runsSafe_one_row_or_full :
    ¬ RunsSafe ⟨1, 1, fun _ => 0⟩ 4 ∧ ¬ RunsSafe ⟨1, 2, fun _ => 0⟩ 2 := by
  refine ⟨not_runsSafe ⟨fun _ => ⟨0, 0, 0, 0, 0, 0⟩, 4, 0⟩ rfl fun encoded he => ?_,
    not_runsSafe ⟨fun _ => ⟨0, 0, 0, 0, 0, 0⟩, 2, 0⟩ rfl fun encoded he => ?_⟩
  · obtain rfl := Option.some.inj he
    rfl
  · obtain rfl := Option.some.inj he
    rfl

end LARCmaCS.CMVision
