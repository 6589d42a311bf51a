import Mathlib.Order.Bounds.Defs
import LARCmaCS.Lib.Loop
import LARCmaCS.CMVision.Regions

/-!
# connectComponents finds the regions

The lock-step loop changes parents only, so its state is given by a parent
function and the two cursors (`sweepAt`). Below the number of runs the parents
are an ordered forest; its roots name the classes that the pairs of touching
runs the cursors have passed connect (`SweepInv`). Every touching pair is
passed, and the last loop replaces each parent by its root.
-/

namespace LARCmaCS.CMVision

open UnionFind

-- ---------------------------------------------------------------------------
-- Parents in the buffer
-- ---------------------------------------------------------------------------

def RunList.withParents (base : RunList) (q : Nat → Nat) : RunList :=
  { base with runs := fun k => { base.runs k with parent := q k } }

/-- The parents of the first `n` runs, as a forest on all numbers. -/
def forest (n : Nat) (q : Nat → Nat) (i : Nat) : Nat := if i < n then q i else i

section Parents

variable {base : RunList} {n i v : Nat} {q : Nat → Nat}

theorem read_withParents (hi : i < base.maxRuns) :
    (base.withParents q).read i = some { base.runs i with parent := q i } := if_pos hi

theorem setParent_withParents (hi : i < base.maxRuns) :
    (base.withParents q).setParent i v = some (base.withParents (Function.update q i v)) := by
  rw [RunList.setParent, read_withParents hi]
  simp only [Option.bind_eq_bind, Option.bind_some]
  rw [RunList.write_of_lt (l := base.withParents q) hi]
  simp only [RunList.withParents, Option.some.injEq, RunList.mk.injEq, and_true]
  funext k
  by_cases hk : k = i
  · subst hk
    simp
  · simp [hk]

@[simp] theorem forest_of_lt (hi : i < n) : forest n q i = q i := if_pos hi

theorem forest_update (hi : i < n) :
    forest n (Function.update q i v) = Function.update (forest n q) i v := by
  funext k
  by_cases hk : k = i
  · subst hk
    simp [hi]
  · simp [forest, hk]

theorem root_forest_lt (hi : i < n) : root (forest n q) i < n :=
  Nat.lt_of_le_of_lt (root_le _ _) hi

theorem findRoot_spec (h : Ordered (forest n q)) (hn : n ≤ base.maxRuns) (fuel : Nat) (hi : i < n)
    (hfuel : i < fuel) :
    findRoot (base.withParents q) fuel i = some (root (forest n q) i) := by
  induction fuel generalizing i with
  | zero => exact absurd hfuel (Nat.not_lt_zero i)
  | succ fuel ih =>
    have hparent : forest n q i ≤ i := h i
    rw [findRoot, read_withParents (by omega)]
    simp only [Option.bind_eq_bind, Option.bind_some]
    split
    · rename_i hne
      rw [← root_parent h i]
      rw [forest_of_lt hi] at hparent ⊢
      exact ih (by omega) (by omega)
    · rename_i heq
      rw [root_of_eq]
      rw [forest_of_lt hi]
      exact (Decidable.not_not.mp heq).symm

end Parents

-- ---------------------------------------------------------------------------
-- Two runs that belong together
-- ---------------------------------------------------------------------------

/-- The loop's variables at parents `q`, cursors `l1` and `l2`: the copies are
the runs the cursors are on. -/
def sweepAt (base : RunList) (q : Nat → Nat) (l1 l2 s : Nat) : Sweep where
  map := base.withParents q
  l1
  l2
  r1 := { base.runs l1 with parent := q l1 }
  r2 := { base.runs l2 with parent := q l2 }
  s

section Connect

variable {base : RunList} {n l1 l2 s : Nat} {q : Nat → Nat}

theorem link_sweepAt (h21 : l2 < l1) (h1 : l1 < base.maxRuns) {hi lo : Nat}
    (hhi : hi < base.maxRuns) :
    (sweepAt base q l1 l2 s).link hi lo = some (sweepAt base
      (Function.update (Function.update (Function.update q hi lo) l2 lo) l1 lo) l1 l2 s) := by
  simp only [Sweep.link, sweepAt, setParent_withParents hhi, Option.bind_eq_bind, Option.bind_some,
    setParent_withParents (Nat.lt_trans h21 h1), setParent_withParents h1]
  simp [Nat.ne_of_lt h21]

/-- The forest after `link`: two roots are linked, then both cursors' runs are
redirected to the lower one. -/
theorem root_link_sweepAt (h : Ordered (forest n q)) {a b : Nat} (ha : a < n) (hb : b < n)
    (hle : root (forest n q) a ≤ root (forest n q) b) {c d : Nat} (hc : c < n) (hd : d < n)
    (hcd : (c = a ∨ c = b) ∧ (d = a ∨ d = b)) :
    let q' := Function.update (Function.update (Function.update q (root (forest n q) b)
      (root (forest n q) a)) c (root (forest n q) a)) d (root (forest n q) a)
    Ordered (forest n q') ∧ ∀ k, root (forest n q') k = merge (root (forest n q)) a b k := by
  intro q'
  have hmerge {x : Nat} (hx : x = a ∨ x = b) :
      merge (root (forest n q)) a b x = root (forest n q) a := by
    rcases hx with rfl | rfl <;> simp [merge]
  have hlea (x : Nat) (hx : x = a ∨ x = b) : root (forest n q) a ≤ x := by
    rcases hx with rfl | rfl
    · exact root_le _ _
    · exact Nat.le_trans hle (root_le _ _)
  have hord1 := h.update hle
  have hroot1 := root_union h hle
  have hord2 := hord1.update (hlea c hcd.1)
  have hroot2 := root_redirect_of_eq hord1 ((hroot1 c).trans (hmerge hcd.1))
  have hord3 := hord2.update (hlea d hcd.2)
  have hroot3 := root_redirect_of_eq hord2
    ((hroot2 d).trans ((hroot1 d).trans (hmerge hcd.2)))
  simp only [q', forest_update hd, forest_update hc, forest_update (root_forest_lt hb)]
  exact ⟨hord3, fun k => (hroot3 k).trans ((hroot2 k).trans (hroot1 k))⟩

/-- Connecting the cursors' runs merges their trees, whichever way the code
takes, and touches no parent above the cursors. -/
theorem connect_sweepAt (h : Ordered (forest n q)) (h21 : l2 < l1) (h1 : l1 < n)
    (hn : n ≤ base.maxRuns) (hfresh : s ≠ l1 → q l1 = l1) :
    ∃ q', (sweepAt base q l1 l2 s).connect = some (sweepAt base q' l1 l2 l1) ∧
      Ordered (forest n q') ∧ (∀ a, l1 < a → q' a = q a) ∧
      ((∀ k, root (forest n q') k = merge (root (forest n q)) l2 l1 k) ∨
        ∀ k, root (forest n q') k = merge (root (forest n q)) l1 l2 k) := by
  have h2 : l2 < n := Nat.lt_trans h21 h1
  have hq1 : q l1 ≤ l1 := by simpa [h1] using h l1
  have hq2 : q l2 ≤ l2 := by simpa [h2] using h l2
  have hroot1 : root (forest n q) (q l1) = root (forest n q) l1 := by
    simpa [h1] using root_parent h l1
  have hroot2 : root (forest n q) (q l2) = root (forest n q) l2 := by
    simpa [h2] using root_parent h l2
  by_cases hs : s ≠ l1
  · -- the lower run has no parent yet and takes that of the upper one
    refine ⟨Function.update q l1 (q l2), ?_, ?_, ?_, .inl ?_⟩
    · have hset : (base.withParents q).setParent l1 (q l2) = _ := setParent_withParents (by omega)
      simp only [Sweep.connect, sweepAt, if_pos hs, hset, Option.bind_eq_bind, Option.bind_some]
      simp [Nat.ne_of_lt h21]
    · rw [forest_update h1]
      exact h.update (by omega)
    · intro a ha
      exact Function.update_of_ne (Nat.ne_of_gt ha) ..
    · rw [forest_update h1]
      exact root_link h (by rw [forest_of_lt h1, hfresh hs]) (by omega) hroot2
  · obtain rfl : s = l1 := Decidable.not_not.mp hs
    by_cases heq : q s = q l2
    · refine ⟨q, ?_, h, fun _ _ => rfl, .inl fun k => ?_⟩
      · simp [Sweep.connect, sweepAt, heq]
      · rw [merge_of_eq]
        rw [← hroot1, ← hroot2, heq]
    · have hi := findRoot_spec h hn base.maxRuns (i := q s) (by omega) (by omega)
      have hj := findRoot_spec h hn base.maxRuns (i := q l2) (by omega) (by omega)
      rw [hroot1] at hi
      rw [hroot2] at hj
      have hconnect : (sweepAt base q s l2 s).connect =
          if root (forest n q) s < root (forest n q) l2 then
            (sweepAt base q s l2 s).link (root (forest n q) l2) (root (forest n q) s)
          else (sweepAt base q s l2 s).link (root (forest n q) s) (root (forest n q) l2) := by
        simp only [Sweep.connect, sweepAt, ne_eq, not_true_eq_false, if_false, heq,
          not_false_eq_true, if_true]
        simp only [RunList.withParents] at hi hj
        simp [RunList.withParents, hi, hj]
      have hframe {lo hi : Nat} (hhi : hi ≤ s) (a : Nat) (ha : s < a) :
          Function.update (Function.update (Function.update q hi lo) l2 lo) s lo a = q a := by
        rw [Function.update_of_ne (by omega), Function.update_of_ne (by omega),
          Function.update_of_ne (by omega)]
      by_cases hlt : root (forest n q) s < root (forest n q) l2
      · have hspec := root_link_sweepAt h h1 h2 (Nat.le_of_lt hlt) (c := l2) (d := s) h2 h1
          ⟨.inr rfl, .inl rfl⟩
        refine ⟨_, ?_, hspec.1, hframe ?_, .inr hspec.2⟩
        · rw [hconnect, if_pos hlt]
          exact link_sweepAt h21 (by omega) (Nat.lt_of_lt_of_le (root_forest_lt h2) hn)
        · exact Nat.le_trans (root_le _ _) (Nat.le_of_lt h21)
      · have hspec := root_link_sweepAt h h2 h1 (Nat.le_of_not_lt hlt) (c := l2) (d := s) h2 h1
          ⟨.inl rfl, .inr rfl⟩
        refine ⟨_, ?_, hspec.1, hframe ?_, .inl hspec.2⟩
        · rw [hconnect, if_neg hlt]
          exact link_sweepAt h21 (by omega) (Nat.lt_of_lt_of_le (root_forest_lt h1) hn)
        · exact root_le _ _

end Connect

-- ---------------------------------------------------------------------------
-- The cursors
-- ---------------------------------------------------------------------------

def cursor1 (runs : Nat → Run) (l1 l2 : Nat) : Nat :=
  if (runs l1).stop ≤ (runs l2).stop then l1 + 1 else l1

def cursor2 (runs : Nat → Run) (l1 l2 : Nat) : Nat :=
  if (runs l2).stop ≤ (runs l1).stop then l2 + 1 else l2

theorem cursor_cases (runs : Nat → Run) (l1 l2 : Nat) :
    ((runs l1).stop < (runs l2).stop ∧ cursor1 runs l1 l2 = l1 + 1 ∧ cursor2 runs l1 l2 = l2) ∨
      ((runs l1).stop = (runs l2).stop ∧ cursor1 runs l1 l2 = l1 + 1 ∧
        cursor2 runs l1 l2 = l2 + 1) ∨
      (runs l2).stop < (runs l1).stop ∧ cursor1 runs l1 l2 = l1 ∧ cursor2 runs l1 l2 = l2 + 1 := by
  simp only [cursor1, cursor2]
  rcases Nat.lt_trichotomy (runs l1).stop (runs l2).stop with hlt | heq | hgt
  · exact .inl ⟨hlt, if_pos (Nat.le_of_lt hlt), if_neg (Nat.not_le_of_gt hlt)⟩
  · exact .inr (.inl ⟨heq, if_pos (Nat.le_of_eq heq), if_pos (Nat.le_of_eq heq.symm)⟩)
  · exact .inr (.inr ⟨hgt, if_neg (Nat.not_le_of_gt hgt), if_pos (Nat.le_of_lt hgt)⟩)

section Advance

variable {base : RunList} {n l1 l2 s : Nat} {q : Nat → Nat}

theorem next1_sweepAt (h : l1 + 1 < base.maxRuns) :
    (sweepAt base q l1 l2 s).next1 = some (sweepAt base q (l1 + 1) l2 s) := by
  simp only [Sweep.next1, sweepAt, read_withParents h, Option.bind_eq_bind, Option.bind_some]

theorem next2_sweepAt (h : l2 + 1 < base.maxRuns) :
    (sweepAt base q l1 l2 s).next2 = some (sweepAt base q l1 (l2 + 1) s) := by
  simp only [Sweep.next2, sweepAt, read_withParents h, Option.bind_eq_bind, Option.bind_some]

theorem advance_sweepAt (h21 : l2 < l1) (h1 : l1 < n) (hn : n < base.maxRuns) :
    (sweepAt base q l1 l2 s).advance =
      some (sweepAt base q (cursor1 base.runs l1 l2) (cursor2 base.runs l1 l2) s) := by
  have hstop1 : (sweepAt base q l1 l2 s).r1.stop = (base.runs l1).stop := rfl
  have hstop2 : (sweepAt base q l1 l2 s).r2.stop = (base.runs l2).stop := rfl
  simp only [Sweep.advance, hstop1, hstop2]
  obtain ⟨hstop, hc1, hc2⟩ | ⟨hstop, hc1, hc2⟩ | ⟨hstop, hc1, hc2⟩ :=
    cursor_cases base.runs l1 l2 <;> rw [hc1, hc2]
  · rw [if_pos (by omega), next1_sweepAt (by omega)]
    exact if_neg (by omega)
  · rw [if_pos (by omega), next1_sweepAt (by omega)]
    exact (if_pos (by omega)).trans (next2_sweepAt (by omega))
  · rw [if_neg (by omega)]
    exact (if_pos (by omega)).trans (next2_sweepAt (by omega))

end Advance

/-- Touching pairs of which the cursors have passed one run. -/
structure Seen (runs : Nat → Run) (n l1 l2 b a : Nat) : Prop where
  touch : Touch runs n b a
  passed : a < l1 ∨ b < l2

section Cursors

variable {tmap : Image} {runs : Nat → Run} {n l1 l2 : Nat} (h : Encoded tmap runs n 0 tmap.height)
include h

theorem Encoded.seen_cursor (hrow : (runs l1).y = (runs l2).y + 1) {b a : Nat} :
    Seen runs n (cursor1 runs l1 l2) (cursor2 runs l1 l2) b a ↔
      Seen runs n l1 l2 b a ∨ Touch runs n b a ∧ b = l2 ∧ a = l1 := by
  have hcursors := cursor_cases runs l1 l2
  constructor
  · rintro ⟨ht, hpassed⟩
    by_cases hold : a < l1 ∨ b < l2
    · exact .inl ⟨ht, hold⟩
    · refine .inr ⟨ht, ?_⟩
      rw [not_or, Nat.not_lt, Nat.not_lt] at hold
      obtain ⟨hb, ha, hrow', -, -, hoverlap⟩ := ht
      have hposa := h.pos a ha
      have hposb := h.pos b hb
      simp only [Run.Overlaps, ← Run.stop.eq_1] at hoverlap
      rcases hpassed with hpassed | hpassed
      · -- the lower run stops first, so later runs of the upper row begin behind it
        obtain rfl : a = l1 := by omega
        refine ⟨Nat.le_antisymm (Nat.le_of_not_lt fun hgt => ?_) hold.2, rfl⟩
        have hsorted := h.sorted l2 b hgt hb
        omega
      · obtain rfl : b = l2 := by omega
        refine ⟨rfl, Nat.le_antisymm (Nat.le_of_not_lt fun hgt => ?_) hold.1⟩
        have hsorted := h.sorted l1 a hgt ha
        omega
  · rintro (⟨ht, hpassed⟩ | ⟨ht, rfl, rfl⟩)
    · exact ⟨ht, by omega⟩
    · exact ⟨ht, by omega⟩

theorem Encoded.row_cursor (h2 : l2 < n) (h1 : l1 < n) (hrow : (runs l1).y = (runs l2).y + 1)
    (hlt : cursor1 runs l1 l2 < n) :
    (runs (cursor1 runs l1 l2)).y = (runs (cursor2 runs l1 l2)).y + 1 := by
  have hwidth1 := (h.inside l1 h1).1
  have hwidth2 := (h.inside l2 h2).1
  have h21 := h.lt_of_y_lt (i := l2) (k := l1) h2 (by omega)
  obtain ⟨hstop, hc1, hc2⟩ | ⟨hstop, hc1, hc2⟩ | ⟨hstop, hc1, hc2⟩ := cursor_cases runs l1 l2 <;>
    rw [hc1] at hlt <;> rw [hc1, hc2]
  · have := (h.succ_of_lt_width h1 (by omega)).2
    omega
  · by_cases hend : (runs l1).stop = tmap.width
    · have := h.succ_of_eq_width hlt hend
      have := h.succ_of_eq_width (k := l2) (by omega) (by omega)
      omega
    · have := (h.succ_of_lt_width h1 (by omega)).2
      have := (h.succ_of_lt_width h2 (by omega)).2
      omega
  · have := (h.succ_of_lt_width h2 (by omega)).2
    omega

theorem Encoded.lt_cursor (h2 : l2 < n) (h1 : l1 < n) (hrow : (runs l1).y = (runs l2).y + 1) :
    cursor2 runs l1 l2 < cursor1 runs l1 l2 := by
  have h21 := h.lt_of_y_lt (i := l2) (k := l1) h2 (by omega)
  have hwidth1 := (h.inside l1 h1).1
  obtain ⟨hstop, hc1, hc2⟩ | ⟨hstop, hc1, hc2⟩ | ⟨hstop, hc1, hc2⟩ := cursor_cases runs l1 l2 <;>
    rw [hc1, hc2]
  · omega
  · omega
  · refine Nat.lt_of_le_of_ne h21 fun heq => ?_
    have hsame := (h.succ_of_lt_width h2 (by omega)).2
    rw [heq] at hsame
    omega

end Cursors

-- ---------------------------------------------------------------------------
-- The lock-step loop
-- ---------------------------------------------------------------------------

structure SweepInv (runs : Nat → Run) (n : Nat) (q : Nat → Nat) (l1 l2 s : Nat) : Prop where
  ordered : Ordered (forest n q)
  cursors : l2 < l1
  bound : l1 ≤ n
  last : s ≤ l1
  fresh : ∀ a, l1 ≤ a → a < n → a ≠ s → q a = a
  row : l1 < n → (runs l1).y = (runs l2).y + 1
  names : Names (root (forest n q)) (Seen runs n l1 l2)

section Loop

variable {tmap : Image} {base : RunList} {n : Nat}

theorem SweepInv.round (h : Encoded tmap base.runs n 0 tmap.height) (hn : n < base.maxRuns)
    {q : Nat → Nat} {l1 l2 s : Nat} (hinv : SweepInv base.runs n q l1 l2 s) (h1 : l1 < n) :
    ∃ q' s', (sweepAt base q l1 l2 s).visit = some (sweepAt base q' l1 l2 s') ∧
      SweepInv base.runs n q' (cursor1 base.runs l1 l2) (cursor2 base.runs l1 l2) s' := by
  obtain ⟨hordered, h21, hbound, hlast, hfresh, hrow, hnames⟩ := hinv
  have hrow := hrow h1
  have h2 : l2 < n := Nat.lt_trans h21 h1
  have hcursors := cursor_cases base.runs l1 l2
  have hnext : l1 ≤ cursor1 base.runs l1 l2 ∧ cursor1 base.runs l1 l2 ≤ n := by omega
  have htouch : (sweepAt base q l1 l2 s).r1.Connects (sweepAt base q l1 l2 s).r2 ↔
      Touch base.runs n l2 l1 :=
    ⟨fun hc => ⟨h2, h1, hrow, hc⟩, fun ht => ht.connects⟩
  by_cases hconnects : Touch base.runs n l2 l1
  · rw [Sweep.visit, if_pos (htouch.mpr hconnects)]
    obtain ⟨q', hconnect, hordered', hframe, hmerge⟩ :=
      connect_sweepAt hordered h21 h1 (Nat.le_of_lt hn) fun hs => hfresh l1 (Nat.le_refl l1) h1 hs.symm
    refine ⟨q', l1, hconnect, hordered', h.lt_cursor h2 h1 hrow, hnext.2, hnext.1, ?_,
      h.row_cursor h2 h1 hrow, ?_⟩
    · intro a ha han hne
      rw [hframe a (by omega)]
      exact hfresh a (by omega) han (by omega)
    · rcases hmerge with hmerge | hmerge
      · rw [funext hmerge]
        refine (hnames.merge l2 l1).congr (fun b a hba => .rel _ _ ?_) fun b a hba => .rel _ _ ?_
        · refine (h.seen_cursor hrow).mpr (hba.imp_right ?_)
          rintro ⟨rfl, rfl⟩
          exact ⟨hconnects, rfl, rfl⟩
        · exact ((h.seen_cursor hrow).mp hba).imp_right And.right
      · rw [funext hmerge]
        refine (hnames.merge l1 l2).congr (fun b a hba => ?_) fun b a hba => ?_
        · rcases hba with hba | ⟨rfl, rfl⟩
          · exact .rel _ _ ((h.seen_cursor hrow).mpr (.inl hba))
          · exact .symm _ _ (.rel _ _ ((h.seen_cursor hrow).mpr (.inr ⟨hconnects, rfl, rfl⟩)))
        · rcases (h.seen_cursor hrow).mp hba with hba | ⟨-, rfl, rfl⟩
          · exact .rel _ _ (.inl hba)
          · exact .symm _ _ (.rel _ _ (.inr ⟨rfl, rfl⟩))
  · rw [Sweep.visit, if_neg (mt htouch.mp hconnects)]
    refine ⟨q, s, rfl, hordered, h.lt_cursor h2 h1 hrow, hnext.2, Nat.le_trans hlast hnext.1,
      fun a ha => hfresh a (by omega), h.row_cursor h2 h1 hrow, ?_⟩
    refine hnames.congr (fun b a hba => .rel _ _ ?_) fun b a hba => .rel _ _ ?_
    · exact (h.seen_cursor hrow).mpr (.inl hba)
    · rcases (h.seen_cursor hrow).mp hba with hba | ⟨ht, rfl, rfl⟩
      · exact hba
      · exact absurd ht hconnects

theorem loop_spec (h : Encoded tmap base.runs n 0 tmap.height) (hn : n < base.maxRuns) (fuel : Nat)
    {q : Nat → Nat} {l1 l2 s : Nat} (hinv : SweepInv base.runs n q l1 l2 s)
    (hfuel : (n - l1) + (n - l2) ≤ fuel) :
    ∃ q', Sweep.loop n fuel (sweepAt base q l1 l2 s) = some (base.withParents q') ∧
      Ordered (forest n q') ∧ Names (root (forest n q')) (Touch base.runs n) := by
  have hdone {q : Nat → Nat} {l1 l2 s : Nat} (hinv : SweepInv base.runs n q l1 l2 s)
      (h1 : ¬ l1 < n) : Names (root (forest n q)) (Touch base.runs n) :=
    hinv.names.congr (fun b a hba => .rel _ _ hba.touch) fun b a hba =>
      .rel _ _ ⟨hba, .inl (Nat.lt_of_lt_of_le hba.lower (Nat.le_of_not_lt h1))⟩
  induction fuel generalizing q l1 l2 s with
  | zero =>
    have h1 : ¬ l1 < n := by omega
    exact ⟨q, if_neg h1, hinv.ordered, hdone hinv h1⟩
  | succ fuel ih =>
    by_cases h1 : l1 < n
    · obtain ⟨q', s', hround, hinv'⟩ := hinv.round h hn h1
      have hadvance := advance_sweepAt (q := q') (s := s') hinv.cursors h1 hn
      obtain ⟨q'', hloop, hspec⟩ := ih hinv' (by
        have hlt := hinv.cursors
        have hcursors := cursor_cases base.runs l1 l2
        omega)
      refine ⟨q'', ?_, hspec⟩
      refine (if_pos h1).trans ?_
      simpa [hround, hadvance] using hloop
    · exact ⟨q, by rw [Sweep.loop]; exact if_neg h1, hinv.ordered, hdone hinv h1⟩

end Loop

-- ---------------------------------------------------------------------------
-- The first row and the last pass
-- ---------------------------------------------------------------------------

theorem skipFirstLine_spec {map : RunList} {e : Nat} (he : e < map.maxRuns)
    (hrow : (map.runs e).y ≠ 0) (fuel : Nat) {l1 : Nat} (hle : l1 ≤ e) (hfuel : e < l1 + fuel) :
    ∃ l, skipFirstLine map fuel l1 = some l ∧ l1 ≤ l ∧ l ≤ e ∧ (map.runs l).y ≠ 0 ∧
      ∀ a, l1 ≤ a → a < l → (map.runs a).y = 0 := by
  induction fuel generalizing l1 with
  | zero => omega
  | succ fuel ih =>
    have hread : map.read l1 = some (map.runs l1) := if_pos (by omega)
    simp only [skipFirstLine, hread, Option.bind_eq_bind, Option.bind_some]
    by_cases h0 : (map.runs l1).y = 0
    · have hne : l1 ≠ e := by
        rintro rfl
        exact hrow h0
      obtain ⟨l, hskip, hl1, hle', hlrow, hbefore⟩ :=
        ih (show l1 + 1 ≤ e by omega) (by omega)
      refine ⟨l, by rw [if_pos h0, hskip], by omega, hle', hlrow, fun a ha hal => ?_⟩
      rcases Nat.lt_or_eq_of_le ha with hlt | rfl
      · exact hbefore a hlt hal
      · exact h0
    · exact ⟨l1, if_neg h0, Nat.le_refl l1, hle, h0, fun a ha hal => absurd hal (Nat.not_lt.mpr ha)⟩

theorem compressParents_spec {base : RunList} {n : Nat} {q : Nat → Nat} (h : Ordered (forest n q))
    (hn : n ≤ base.maxRuns) (m : Nat) (hm : m ≤ n) :
    ∃ q', (List.range m).foldlM compressParent (base.withParents q) = some (base.withParents q') ∧
      forest n q' = compress (forest n q) m := by
  induction m with
  | zero => exact ⟨q, rfl, rfl⟩
  | succ m ih =>
    obtain ⟨q', hfold, hq'⟩ := ih (by omega)
    have hparent : q' m = forest n q m := by
      rw [← forest_of_lt (q := q') (n := n) (by omega), hq', compress_eq h, if_neg (Nat.lt_irrefl m)]
    have hle : q' m ≤ m := by
      rw [hparent]
      exact h m
    have hread : ∀ i ≤ m, (base.withParents q').read i = some { base.runs i with parent := q' i } :=
      fun i hi => read_withParents (by omega)
    have hset : (base.withParents q').setParent m (q' (q' m)) = _ :=
      setParent_withParents (by omega)
    refine ⟨Function.update q' m (q' (q' m)), ?_, ?_⟩
    · rw [Loop.foldlM_succ, hfold]
      simp only [Option.bind_eq_bind, Option.bind_some, compressParent, hread m (Nat.le_refl m),
        hread (q' m) hle, hset]
    · rw [forest_update (by omega), hq', compress, ← hq', forest_of_lt (q := q') (i := m) (by omega),
        forest_of_lt (q := q') (i := q' m) (by omega)]

-- ---------------------------------------------------------------------------
-- connectComponents
-- ---------------------------------------------------------------------------

theorem sweepInv_start {tmap : Image} {runs : Nat → Run} {n l1 : Nat}
    (h : Encoded tmap runs n 0 tmap.height) (h0 : (runs 0).y = 0) (hl1 : 1 ≤ l1) (hn : l1 < n)
    (hrow : (runs l1).y = 1) (hbefore : ∀ a < l1, (runs a).y = 0) :
    SweepInv runs n (fun k => (runs k).parent) l1 0 l1 := by
  have hid : forest n (fun k => (runs k).parent) = id := by
    funext k
    unfold forest
    split
    · exact h.parent k ‹_›
    · rfl
  have hroot : root id = id := funext fun k => root_of_eq rfl
  refine ⟨by rw [hid]; exact fun i => Nat.le_refl i, hl1, Nat.le_of_lt hn, Nat.le_refl l1,
    fun a _ ha _ => h.parent a ha, fun _ => by rw [h0, hrow], ?_⟩
  rw [hid, hroot]
  refine names_of_no_edge Function.injective_id ?_
  rintro b a ⟨ht, hpassed⟩
  have hrow' := ht.row
  have := hbefore a (by omega)
  omega

/-- The runs of an encoded image of at least two rows are connected: nothing
but the parents changes, and each becomes the least run of its class. -/
theorem connectComponents_spec {tmap : Image} {l : RunList} (hheight : 2 ≤ tmap.height)
    (h : Encoded tmap l.runs l.usedRuns 0 tmap.height) (hused : l.usedRuns < l.maxRuns) :
    ∃ q p, connectComponents l = some (l.withParents q) ∧ Ordered p ∧
      Names (root p) (Touch l.runs l.usedRuns) ∧ ∀ k < l.usedRuns, q k = root p k := by
  obtain ⟨e0, he0, hrow0, -⟩ := h.rowEnd 0 (.inl (by omega))
  obtain ⟨e1, he1, hrow1, -⟩ := h.rowEnd 1 (.inl (by omega))
  have h0 : (l.runs 0).y = 0 := by
    have := h.y_mono (Nat.zero_le e0) he0
    omega
  have he01 : e0 < e1 := h.lt_of_y_lt he0 (by omega)
  obtain ⟨l1, hskip, hge, hle, hne, hbefore⟩ :=
    skipFirstLine_spec (show e1 < l.maxRuns by omega) (by omega) l.maxRuns (show 1 ≤ e1 by omega)
      (by omega)
  have hrow : (l.runs l1).y = 1 := by
    have := h.y_mono hle he1
    omega
  have hinv := sweepInv_start h h0 hge (by omega) hrow fun a ha => by
    rcases Nat.eq_zero_or_pos a with rfl | hpos
    · exact h0
    · exact hbefore a hpos ha
  obtain ⟨q', hloop, hordered, hnames⟩ :=
    loop_spec h hused (2 * l.maxRuns) hinv (by omega)
  obtain ⟨q'', hcompress, hq''⟩ :=
    compressParents_spec hordered (Nat.le_of_lt hused) l.usedRuns (Nat.le_refl _)
  refine ⟨q'', forest l.usedRuns q', ?_, hordered, hnames, fun k hk => ?_⟩
  · have hread1 : l.read l1 = some (l.runs l1) := if_pos (by omega)
    have hread0 : l.read 0 = some (l.runs 0) := if_pos (by omega)
    have hloop' : Sweep.loop l.usedRuns (2 * l.maxRuns) ⟨l, l1, 0, l.runs l1, l.runs 0, l1⟩ =
      some (l.withParents q') := hloop
    simp only [connectComponents, hskip, hread1, hread0, hloop', Option.bind_eq_bind,
      Option.bind_some, hcompress]
  · rw [← forest_of_lt (q := q'') hk, hq'', compress_eq hordered, if_pos hk]

structure Components (tmap : Image) (l : RunList) : Prop where
  sameParent : ∀ i < l.usedRuns, ∀ k < l.usedRuns, (l.runs i).color ≠ 0 → (l.runs k).color ≠ 0 →
    ∀ p q : Pixel, (l.runs i).Contains p.1 p.2 → (l.runs k).Contains q.1 q.2 →
      ((l.runs i).parent = (l.runs k).parent ↔ SameRegion tmap p q)
  least : ∀ i < l.usedRuns, (l.runs i).color ≠ 0 →
    IsLeast {k | k < l.usedRuns ∧ ∃ p q : Pixel, (l.runs i).Contains p.1 p.2 ∧
      (l.runs k).Contains q.1 q.2 ∧ SameRegion tmap p q} (l.runs i).parent
  idempotent : ∀ i < l.usedRuns, (l.runs (l.runs i).parent).parent = (l.runs i).parent

/-- The components are right for every image of at least two rows that fits
the buffer. -/
theorem connectComponents_correct (tmap : Image) (hwidth : 1 ≤ tmap.width) (hheight : 2 ≤ tmap.height)
    (l encoded : RunList) (hencode : encodeRuns tmap l = some encoded)
    (hused : encoded.usedRuns < l.maxRuns) :
    ∃ connected, connectComponents encoded = some connected ∧ Components tmap connected ∧
      connected.usedRuns = encoded.usedRuns ∧ ∀ k, ∃ parent,
        connected.runs k = { encoded.runs k with parent } := by
  obtain ⟨l', hl', hmax, hspec⟩ := encodeRuns_spec hwidth l (by omega)
  obtain rfl : encoded = l' := Option.some.inj (hencode.symm.trans hl')
  have h := hspec (by omega)
  obtain ⟨q, p, hconnect, hordered, hnames, hroot⟩ :=
    connectComponents_spec hheight h (by omega)
  have hregion {i k : Nat} (hi : i < encoded.usedRuns) (hk : k < encoded.usedRuns)
      (hcolor : (encoded.runs i).color ≠ 0) {p' q' : Pixel}
      (hp : (encoded.runs i).Contains p'.1 p'.2) (hq : (encoded.runs k).Contains q'.1 q'.2) :
      q i = q k ↔ SameRegion tmap p' q' := by
    rw [hroot i hi, hroot k hk, hnames i k]
    exact h.touch_iff_sameRegion hi hk hcolor hp hq
  have hlt {i : Nat} (hi : i < encoded.usedRuns) : q i < encoded.usedRuns := by
    rw [hroot i hi]
    exact Nat.lt_of_le_of_lt (root_le p i) hi
  have hidem {i : Nat} (hi : i < encoded.usedRuns) : q (q i) = q i := by
    rw [hroot (q i) (hlt hi), hroot i hi, root_root hordered]
  have hfirst {k : Nat} (hk : k < encoded.usedRuns) :
      (encoded.runs k).Contains (encoded.runs k).first.1 (encoded.runs k).first.2 :=
    ⟨rfl, Nat.le_refl _, h.pos k hk⟩
  refine ⟨_, hconnect, ⟨?_, ?_, fun i hi => hidem hi⟩, rfl, fun k => ⟨q k, rfl⟩⟩
  · intro i hi k hk hcolor _ p' q' hp hq
    exact hregion hi hk hcolor hp hq
  · intro i hi hcolor
    constructor
    · refine ⟨hlt hi, _, _, hfirst hi, hfirst (hlt hi), ?_⟩
      exact (hregion hi (hlt hi) hcolor (hfirst hi) (hfirst (hlt hi))).mp (hidem hi).symm
    · rintro k ⟨hk, p', q', hp, hq, hsame⟩
      have heq : q i = q k := (hregion hi hk hcolor hp hq).mpr hsame
      show q i ≤ k
      rw [heq, hroot k hk]
      exact root_le p k

theorem connectComponents_correct_two_columns :
    let tmap : Image := ⟨3, 2, fun k => [1, 0, 1, 1, 1, 1].getD k 0⟩
    let buffer : RunList := ⟨fun _ => ⟨0, 0, 0, 0, 0, 0⟩, 10, 0⟩
    ∃ encoded connected, encodeRuns tmap buffer = some encoded ∧
      connectComponents encoded = some connected ∧ Components tmap connected := by
  intro tmap buffer
  have hencode : encodeRuns tmap buffer = some _ := rfl
  obtain ⟨connected, hconnect, hcomponents, -⟩ :=
    connectComponents_correct tmap (by decide) (by decide) buffer _ hencode (by decide)
  exact ⟨_, connected, hencode, hconnect, hcomponents⟩

end LARCmaCS.CMVision
