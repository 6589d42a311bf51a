import LARCmaCS.Lib.Loop
import LARCmaCS.CMVision.Encode

/-!
# Regions from connected runs

`extractRegions` of `cmvision_region.cpp`, in exact arithmetic, over the
region table of `cmvision_region.h`. `extractRegions_spec`: on run lists
whose parents come first, it stays within both tables, and what it writes
depends only on the used runs.
-/

namespace LARCmaCS.CMVision

structure Region where
  color : Raw8
  x1 : Int
  y1 : Int
  x2 : Int
  y2 : Int
  cen_x : Rat
  cen_y : Rat
  area : Nat
  run_start : Nat
  iterator_id : Nat

/-- `regions` is the memory the table lies in; its own entries are those below
`maxRegions`. -/
structure RegionList where
  regions : Nat → Region
  maxRegions : Nat
  usedRegions : Nat

namespace RegionList

def read (l : RegionList) (b : Nat) : Option Region :=
  if b < l.maxRegions then some (l.regions b) else none

def put (l : RegionList) (b : Nat) (g : Region) : RegionList :=
  { l with regions := Function.update l.regions b g }

def write (l : RegionList) (b : Nat) (g : Region) : Option RegionList :=
  if b < l.maxRegions then some (l.put b g) else none

@[simp] theorem put_regions_self (l : RegionList) (b : Nat) (g : Region) :
    (l.put b g).regions b = g := Function.update_self ..

theorem put_regions_of_ne {l : RegionList} {b c : Nat} (g : Region) (hc : c ≠ b) :
    (l.put b g).regions c = l.regions c := Function.update_of_ne hc ..

theorem read_of_lt {l : RegionList} {b : Nat} (hb : b < l.maxRegions) :
    l.read b = some (l.regions b) := if_pos hb

theorem write_of_lt {l : RegionList} {b : Nat} {g : Region} (hb : b < l.maxRegions) :
    l.write b g = some (l.put b g) := if_pos hb

end RegionList

def RunList.setNext (l : RunList) (i n : Nat) : Option RunList := do
  let r ← l.read i
  l.write i { r with next := n }

-- ---------------------------------------------------------------------------
-- extractRegions
-- ---------------------------------------------------------------------------

/-- The sum of the integers in `[x, x + w)`. -/
def rangeSum (x w : Nat) : Nat := w * (2 * x + w - 1) / 2

def Region.ofRun (i : Nat) (r : Run) : Region where
  color := r.color
  area := r.width
  x1 := r.x
  y1 := r.y
  x2 := r.x + r.width
  y2 := r.y
  cen_x := rangeSum r.x r.width
  cen_y := r.y * r.width
  run_start := i
  iterator_id := i

def Region.addRun (g : Region) (i : Nat) (r : Run) : Region :=
  { g with
    area := g.area + r.width
    x2 := max (r.x + r.width) g.x2
    x1 := min r.x g.x1
    y2 := r.y
    cen_x := g.cen_x + rangeSum r.x r.width
    cen_y := g.cen_y + r.y * r.width
    iterator_id := i }

/-- The centroid from the stored sums, and the inclusive range. -/
def Region.close (g : Region) : Region :=
  { g with
    cen_x := g.cen_x / g.area
    cen_y := g.cen_y / g.area
    iterator_id := 0
    x2 := g.x2 - 1 }

structure Extraction where
  rmap : RunList
  reg : RegionList
  n : Nat

namespace Extraction

/-- The self-parented run `i` opens the region `n`, and its parent becomes that
number. -/
def addRegion (t : Extraction) (i : Nat) (r : Run) : Option Extraction := do
  let rmap ← t.rmap.setParent i t.n
  let reg ← t.reg.write t.n (.ofRun i r)
  some ⟨rmap, reg, t.n + 1⟩

/-- Run `i` joins the region of its root, behind that region's last run. -/
def addRun (t : Extraction) (i : Nat) (r : Run) : Option Extraction := do
  let root ← t.rmap.read r.parent
  let b := root.parent
  let rmap ← t.rmap.setParent i b
  let g ← t.reg.read b
  let rmap ← rmap.setNext g.iterator_id i
  let reg ← t.reg.write b (g.addRun i r)
  some ⟨rmap, reg, t.n⟩

/-- One round of the loop. The flag says that the table is full and
`extractRegions` returns. -/
def visit (t : Extraction) (i : Nat) : Option (Extraction × Bool) := do
  let r ← t.rmap.read i
  if r.color ≠ 0 then
    if r.parent = i then do
      let t ← t.addRegion i r
      some (t, decide (t.n ≥ t.reg.maxRegions))
    else do
      let t ← t.addRun i r
      some (t, false)
  else some (t, false)

def visitRuns : (k i : Nat) → Extraction → Option (Extraction × Bool)
  | 0, _, t => some (t, false)
  | k + 1, i, t => do
    let (t, full) ← t.visit i
    if full then some (t, true) else visitRuns k (i + 1) t

def close (t : Extraction) (i : Nat) : Option Extraction := do
  let g ← t.reg.read i
  let rmap ← t.rmap.setNext g.iterator_id 0
  let reg ← t.reg.write i g.close
  some { t with rmap, reg }

end Extraction

def extractRegions (reglist : RegionList) (runlist : RunList) : Option (RegionList × RunList) := do
  let (t, full) ← Extraction.visitRuns runlist.usedRuns 0 ⟨runlist, reglist, 0⟩
  if full then some ({ t.reg with usedRegions := t.reg.maxRegions }, t.rmap)
  else do
    let t ← (List.range t.n).foldlM Extraction.close t
    some ({ t.reg with usedRegions := t.n }, t.rmap)

-- ---------------------------------------------------------------------------
-- Run lists that agree on their first runs
-- ---------------------------------------------------------------------------

namespace RunList

def put (l : RunList) (i : Nat) (r : Run) : RunList :=
  { l with runs := Function.update l.runs i r }

@[simp] theorem put_maxRuns (l : RunList) (i : Nat) (r : Run) : (l.put i r).maxRuns = l.maxRuns := rfl

@[simp] theorem put_runs_self (l : RunList) (i : Nat) (r : Run) : (l.put i r).runs i = r :=
  Function.update_self ..

theorem put_runs_of_ne {l : RunList} {i k : Nat} (r : Run) (hk : k ≠ i) :
    (l.put i r).runs k = l.runs k := Function.update_of_ne hk ..

theorem read_of_lt {l : RunList} {i : Nat} (hi : i < l.maxRuns) : l.read i = some (l.runs i) :=
  if_pos hi

theorem setParent_of_lt {l : RunList} {i p : Nat} (hi : i < l.maxRuns) :
    l.setParent i p = some (l.put i { l.runs i with parent := p }) := by
  rw [setParent, read_of_lt hi]
  exact write_of_lt hi _

theorem setNext_of_lt {l : RunList} {i n : Nat} (hi : i < l.maxRuns) :
    l.setNext i n = some (l.put i { l.runs i with next := n }) := by
  rw [setNext, read_of_lt hi]
  exact write_of_lt hi _

/-- The lists have the same first `n` runs in buffers of one length. -/
structure Agree (n : Nat) (l s : RunList) : Prop where
  maxRuns : s.maxRuns = l.maxRuns
  usedRuns : s.usedRuns = l.usedRuns
  runs : ∀ k < n, s.runs k = l.runs k

theorem Agree.refl (n : Nat) (l : RunList) : l.Agree n l := ⟨rfl, rfl, fun _ _ => rfl⟩

theorem Agree.put {n : Nat} {l s : RunList} (h : l.Agree n s) {i : Nat} {r r' : Run} (hr : r' = r) :
    (l.put i r).Agree n (s.put i r') := by
  refine ⟨h.maxRuns, h.usedRuns, fun k hk => ?_⟩
  subst hr
  by_cases hki : k = i
  · subst hki
    simp
  · rw [put_runs_of_ne _ hki, put_runs_of_ne _ hki, h.runs k hk]

end RunList

-- ---------------------------------------------------------------------------
-- The loop over the runs
-- ---------------------------------------------------------------------------

/-- The runs are connected: the parent of a coloured run comes no later and is
coloured. -/
structure Rooted (runs : Nat → Run) (n : Nat) : Prop where
  le : ∀ k < n, (runs k).color ≠ 0 → (runs k).parent ≤ k
  color : ∀ k < n, (runs k).color ≠ 0 → (runs (runs k).parent).color ≠ 0

/-- The loop is at run `i`: every earlier coloured run has its region's number
for a parent, the later ones are untouched. -/
structure Extracting (base : RunList) (i : Nat) (t : Extraction) : Prop where
  maxRuns : t.rmap.maxRuns = base.maxRuns
  usedRuns : t.rmap.usedRuns = base.usedRuns
  ahead : ∀ k, i ≤ k → t.rmap.runs k = base.runs k
  numbered : ∀ k < i, (base.runs k).color ≠ 0 → (t.rmap.runs k).parent < t.n
  room : t.n < t.reg.maxRegions
  last : ∀ b < t.n, (t.reg.regions b).iterator_id < i

namespace Extraction

variable {base s : RunList} {num i : Nat} {t : Extraction}

def withRuns (t : Extraction) (s : RunList) : Extraction := { t with rmap := s }

def opened (t : Extraction) (i : Nat) : Extraction where
  rmap := t.rmap.put i { t.rmap.runs i with parent := t.n }
  reg := t.reg.put t.n (.ofRun i (t.rmap.runs i))
  n := t.n + 1

def target (t : Extraction) (i : Nat) : Nat := (t.rmap.runs (t.rmap.runs i).parent).parent

def joined (t : Extraction) (i : Nat) : Extraction :=
  let g := t.reg.regions (t.target i)
  let rmap := t.rmap.put i { t.rmap.runs i with parent := t.target i }
  { t with
    rmap := rmap.put g.iterator_id { rmap.runs g.iterator_id with next := i }
    reg := t.reg.put (t.target i) (g.addRun i (t.rmap.runs i)) }

def step (t : Extraction) (i : Nat) : Extraction :=
  if (t.rmap.runs i).color = 0 then t
  else if (t.rmap.runs i).parent = i then t.opened i
  else t.joined i

theorem step_cases (t : Extraction) (i : Nat) :
    ((t.rmap.runs i).color = 0 ∧ t.step i = t) ∨
      ((t.rmap.runs i).color ≠ 0 ∧ (t.rmap.runs i).parent = i ∧ t.step i = t.opened i) ∨
      (t.rmap.runs i).color ≠ 0 ∧ (t.rmap.runs i).parent ≠ i ∧ t.step i = t.joined i := by
  by_cases hcolor : (t.rmap.runs i).color = 0
  · exact .inl ⟨hcolor, if_pos hcolor⟩
  · by_cases hroot : (t.rmap.runs i).parent = i
    · exact .inr (.inl ⟨hcolor, hroot, (if_neg hcolor).trans (if_pos hroot)⟩)
    · exact .inr (.inr ⟨hcolor, hroot, (if_neg hcolor).trans (if_neg hroot)⟩)

structure Joins (t : Extraction) (i : Nat) : Prop where
  parent : (t.rmap.runs i).parent < i
  region : t.target i < t.n
  last : (t.reg.regions (t.target i)).iterator_id < i

def Within (t : Extraction) (i : Nat) : Prop :=
  (t.rmap.runs i).color ≠ 0 → (t.rmap.runs i).parent ≠ i → t.Joins i

theorem step_usedRuns (t : Extraction) (i : Nat) : (t.step i).rmap.usedRuns = t.rmap.usedRuns := by
  obtain ⟨-, hstep⟩ | ⟨-, -, hstep⟩ | ⟨-, -, hstep⟩ := t.step_cases i <;> rw [hstep] <;> rfl

theorem opened_parent (t : Extraction) (i k : Nat) :
    ((t.opened i).rmap.runs k).parent = if k = i then t.n else (t.rmap.runs k).parent := by
  by_cases hk : k = i
  · subst hk
    simp [opened]
  · rw [if_neg hk, opened, RunList.put_runs_of_ne _ hk]

theorem joined_parent (t : Extraction) (i k : Nat) :
    ((t.joined i).rmap.runs k).parent = if k = i then t.target i else (t.rmap.runs k).parent := by
  have hput (k : Nat) : ((t.rmap.put i { t.rmap.runs i with parent := t.target i }).runs k).parent =
      if k = i then t.target i else (t.rmap.runs k).parent := by
    by_cases hk : k = i
    · subst hk
      simp
    · rw [if_neg hk, RunList.put_runs_of_ne _ hk]
  rw [← hput k, joined]
  by_cases hlast : k = (t.reg.regions (t.target i)).iterator_id
  · rw [hlast]
    simp
  · simp only [RunList.put_runs_of_ne _ hlast]

theorem visit_eq (h : t.Within i) (hi : i < t.rmap.maxRuns) (hn : t.n < t.reg.maxRegions) :
    t.visit i = some (t.step i, decide ((t.step i).n ≥ (t.step i).reg.maxRegions)) := by
  have hroom : decide (t.n ≥ t.reg.maxRegions) = false := by simpa using hn
  simp only [visit, RunList.read_of_lt hi, Option.bind_eq_bind, Option.bind_some]
  obtain ⟨hcolor, hstep⟩ | ⟨hcolor, hroot, hstep⟩ | ⟨hcolor, hroot, hstep⟩ := t.step_cases i <;>
    rw [hstep]
  · rw [if_neg (not_not_intro hcolor), hroom]
  · rw [if_pos hcolor, if_pos hroot]
    simp only [addRegion, RunList.setParent_of_lt hi, RegionList.write_of_lt hn,
      Option.bind_eq_bind, Option.bind_some]
    rfl
  · obtain ⟨hparent, hregion, hlast⟩ := h hcolor hroot
    have hb := Nat.lt_trans hregion hn
    rw [if_pos hcolor, if_neg hroot]
    simp only [addRun, RunList.read_of_lt (Nat.lt_trans hparent hi), RunList.setParent_of_lt hi,
      Option.bind_eq_bind, Option.bind_some]
    rw [← target, RegionList.read_of_lt hb, Option.bind_some,
      RunList.setNext_of_lt (by exact Nat.lt_trans hlast hi), RegionList.write_of_lt hb]
    exact congrArg (fun full => some (t.joined i, full)) hroom.symm

theorem target_agree (h : t.Joins i) (hi : i < num) (hs : t.rmap.Agree num s) :
    (t.withRuns s).target i = t.target i := by
  simp only [target, withRuns, hs.runs i hi, hs.runs _ (Nat.lt_trans h.parent hi)]

theorem step_agree (h : t.Within i) (hi : i < num) (hs : t.rmap.Agree num s) :
    ∃ s', (t.withRuns s).step i = (t.step i).withRuns s' ∧ (t.step i).rmap.Agree num s' := by
  have hrun : (t.withRuns s).rmap.runs i = t.rmap.runs i := hs.runs i hi
  have hcases := (t.withRuns s).step_cases i
  rw [hrun] at hcases
  obtain ⟨hcolor, hstep⟩ | ⟨hcolor, hroot, hstep⟩ | ⟨hcolor, hroot, hstep⟩ := hcases
  · rw [hstep, step, if_pos hcolor]
    exact ⟨s, rfl, hs⟩
  · rw [hstep, step, if_neg hcolor, if_pos hroot, opened, hrun]
    exact ⟨_, rfl, hs.put rfl⟩
  · have hjoins := h hcolor hroot
    rw [hstep, step, if_neg hcolor, if_neg hroot, joined, hrun, target_agree hjoins hi hs]
    have hput := hs.put (i := i) (r := { t.rmap.runs i with parent := t.target i }) rfl
    exact ⟨_, rfl, hput.put (by rw [← hput.runs _ (Nat.lt_trans hjoins.last hi)]; rfl)⟩

theorem Within.agree (h : t.Within i) (hi : i < num) (hs : t.rmap.Agree num s) :
    (t.withRuns s).Within i := by
  intro hcolor hroot
  have hrun : (t.withRuns s).rmap.runs i = t.rmap.runs i := hs.runs i hi
  rw [hrun] at hcolor hroot
  have hjoins := h hcolor hroot
  refine ⟨by rw [hrun]; exact hjoins.parent, ?_, ?_⟩
  · rw [target_agree hjoins hi hs]
    exact hjoins.region
  · rw [target_agree hjoins hi hs]
    exact hjoins.last

end Extraction

section Loop

variable {base : RunList} {num i : Nat} {t : Extraction}

theorem Extracting.within (h : Extracting base i t) (hroot : Rooted base.runs num) (hi : i < num) :
    t.Within i := by
  intro hcolor hne
  have hrun := h.ahead i (Nat.le_refl i)
  rw [hrun] at hcolor hne
  have hparent : (base.runs i).parent < i := Nat.lt_of_le_of_ne (hroot.le i hi hcolor) hne
  have hregion : t.target i < t.n := by
    rw [Extraction.target, hrun]
    exact h.numbered _ hparent (hroot.color i hi hcolor)
  exact ⟨by rwa [hrun], hregion, h.last _ hregion⟩

theorem Extracting.step (h : Extracting base i t) (hwithin : t.Within i)
    (hroom : (t.step i).n < (t.step i).reg.maxRegions) : Extracting base (i + 1) (t.step i) := by
  have hrun := h.ahead i (Nat.le_refl i)
  obtain ⟨hcolor, hstep⟩ | ⟨hcolor, hroot, hstep⟩ | ⟨hcolor, hroot, hstep⟩ := t.step_cases i <;>
    rw [hstep] at hroom ⊢
  · refine { h with
      ahead := fun k hk => h.ahead k (by omega)
      numbered := fun k hk hk0 => ?_
      last := fun b hb => Nat.lt_succ_of_lt (h.last b hb) }
    rcases Nat.lt_succ_iff_lt_or_eq.mp hk with hlt | rfl
    · exact h.numbered k hlt hk0
    · exact absurd hcolor (by rwa [hrun])
  · refine ⟨h.maxRuns, h.usedRuns, fun k hk => ?_, fun k hk hk0 => ?_, hroom, fun b hb => ?_⟩
    · rw [← h.ahead k (by omega)]
      exact RunList.put_runs_of_ne _ (by omega)
    · rw [Extraction.opened_parent]
      split
      · exact Nat.lt_succ_self t.n
      · exact Nat.lt_succ_of_lt (h.numbered k (by omega) hk0)
    · by_cases hbn : b = t.n
      · subst hbn
        simp [Extraction.opened, Region.ofRun]
      · rw [Extraction.opened, RegionList.put_regions_of_ne _ hbn]
        exact Nat.lt_succ_of_lt (h.last b (Nat.lt_of_le_of_ne (Nat.le_of_lt_succ hb) hbn))
  · have hjoins := hwithin hcolor hroot
    refine ⟨h.maxRuns, h.usedRuns, fun k hk => ?_, fun k hk hk0 => ?_, hroom, fun b hb => ?_⟩
    · have hlast := hjoins.last
      rw [← h.ahead k (by omega), Extraction.joined, RunList.put_runs_of_ne _ (by omega)]
      exact RunList.put_runs_of_ne _ (by omega)
    · rw [Extraction.joined_parent]
      split
      · exact hjoins.region
      · exact h.numbered k (by omega) hk0
    · by_cases hbt : b = t.target i
      · subst hbt
        simp [Extraction.joined, Region.addRun]
      · rw [Extraction.joined, RegionList.put_regions_of_ne _ hbt]
        exact Nat.lt_succ_of_lt (h.last b hb)

theorem visitRuns_spec (hroot : Rooted base.runs num) (hnum : num ≤ base.maxRuns) (k : Nat)
    {i : Nat} {t : Extraction} (h : Extracting base i t) (hk : i + k ≤ num) :
    ∃ t' full, Extraction.visitRuns k i t = some (t', full) ∧
      t'.rmap.usedRuns = base.usedRuns ∧ (full = false → Extracting base (i + k) t') ∧
      ∀ s, t.rmap.Agree num s → ∃ s',
        Extraction.visitRuns k i (t.withRuns s) = some (t'.withRuns s', full) ∧
          t'.rmap.Agree num s' := by
  induction k generalizing i t with
  | zero => exact ⟨t, false, rfl, h.usedRuns, fun _ => h, fun s hs => ⟨s, rfl, hs⟩⟩
  | succ k ih =>
    have hi : i < num := by omega
    have hmax : i < t.rmap.maxRuns := by
      rw [h.maxRuns]
      omega
    have hwithin := h.within hroot hi
    have hvisit := Extraction.visit_eq hwithin hmax h.room
    have hagree (s : RunList) (hs : t.rmap.Agree num s) : ∃ s',
        (t.withRuns s).visit i = some ((t.step i).withRuns s',
          decide ((t.step i).n ≥ (t.step i).reg.maxRegions)) ∧ (t.step i).rmap.Agree num s' := by
      obtain ⟨s', hstep, hs'⟩ := Extraction.step_agree hwithin hi hs
      refine ⟨s', ?_, hs'⟩
      rw [Extraction.visit_eq (hwithin.agree hi hs) (by simpa [Extraction.withRuns, hs.maxRuns]) h.room,
        hstep]
      rfl
    by_cases hfull : (t.step i).n ≥ (t.step i).reg.maxRegions
    · simp only [hfull, decide_true] at hvisit hagree
      refine ⟨t.step i, true, by simp [Extraction.visitRuns, hvisit],
        (t.step_usedRuns i).trans h.usedRuns, by simp, fun s hs => ?_⟩
      obtain ⟨s', hvisit', hs'⟩ := hagree s hs
      exact ⟨s', by simp [Extraction.visitRuns, hvisit'], hs'⟩
    · simp only [hfull, decide_false] at hvisit hagree
      obtain ⟨t', full, hruns, hused, hinv, hruns'⟩ :=
        ih (h.step hwithin (Nat.lt_of_not_ge hfull)) (by omega)
      rw [Nat.add_right_comm] at hinv
      refine ⟨t', full, by simpa [Extraction.visitRuns, hvisit] using hruns, hused, hinv,
        fun s hs => ?_⟩
      obtain ⟨s', hvisit', hs'⟩ := hagree s hs
      obtain ⟨s'', hruns'', hs''⟩ := hruns' s' hs'
      exact ⟨s'', by simpa [Extraction.visitRuns, hvisit'] using hruns'', hs''⟩

end Loop

-- ---------------------------------------------------------------------------
-- The last loop
-- ---------------------------------------------------------------------------

namespace Extraction

def closed (t : Extraction) (i : Nat) : Extraction :=
  let g := t.reg.regions i
  { t with
    rmap := t.rmap.put g.iterator_id { t.rmap.runs g.iterator_id with next := 0 }
    reg := t.reg.put i g.close }

theorem close_eq {t : Extraction} {i : Nat} (hi : i < t.reg.maxRegions)
    (hlast : (t.reg.regions i).iterator_id < t.rmap.maxRuns) : t.close i = some (t.closed i) := by
  simp only [close, RegionList.read_of_lt hi, RunList.setNext_of_lt hlast,
    RegionList.write_of_lt hi, Option.bind_eq_bind, Option.bind_some]
  rfl

theorem closed_agree {t : Extraction} {s : RunList} {num i : Nat}
    (hlast : (t.reg.regions i).iterator_id < num) (hs : t.rmap.Agree num s) :
    ∃ s', (t.withRuns s).closed i = (t.closed i).withRuns s' ∧ (t.closed i).rmap.Agree num s' :=
  ⟨_, rfl, hs.put (by rw [← hs.runs _ hlast]; rfl)⟩

theorem closed_next (t : Extraction) (i k : Nat) :
    ((t.closed i).rmap.runs k).next =
      if k = (t.reg.regions i).iterator_id then 0 else (t.rmap.runs k).next := by
  by_cases hk : k = (t.reg.regions i).iterator_id
  · subst hk
    simp [closed]
  · rw [if_neg hk, closed, RunList.put_runs_of_ne _ hk]

theorem closeAll_spec {t : Extraction} {num : Nat} (hnum : num ≤ t.rmap.maxRuns)
    (hn : t.n ≤ t.reg.maxRegions) (hlast : ∀ b < t.n, (t.reg.regions b).iterator_id < num)
    (m : Nat) (hm : m ≤ t.n) :
    ∃ t', (List.range m).foldlM close t = some t' ∧ t'.rmap.maxRuns = t.rmap.maxRuns ∧
      t'.rmap.usedRuns = t.rmap.usedRuns ∧ t'.reg.maxRegions = t.reg.maxRegions ∧ t'.n = t.n ∧
      (∀ b, t'.reg.regions b = if b < m then (t.reg.regions b).close else t.reg.regions b) ∧
      (∀ k, (t'.rmap.runs k).next =
        if ∃ b < m, k = (t.reg.regions b).iterator_id then 0 else (t.rmap.runs k).next) ∧
      ∀ s, t.rmap.Agree num s → ∃ s',
        (List.range m).foldlM close (t.withRuns s) = some (t'.withRuns s') ∧
          t'.rmap.Agree num s' := by
  induction m with
  | zero =>
    refine ⟨t, rfl, rfl, rfl, rfl, rfl, fun b => ?_, fun k => ?_, fun s hs => ⟨s, rfl, hs⟩⟩ <;> simp
  | succ m ih =>
    obtain ⟨t', hfold, hmax, hused, hregs, hcount, hregions, hnext, hagree⟩ := ih (by omega)
    have hopen : t'.reg.regions m = t.reg.regions m := by
      rw [hregions, if_neg (Nat.lt_irrefl m)]
    have hlast' : (t'.reg.regions m).iterator_id < num := by
      rw [hopen]
      exact hlast m hm
    have hclose : t'.close m = some (t'.closed m) := close_eq (by omega) (by omega)
    refine ⟨t'.closed m, ?_, hmax, hused, hregs, hcount, fun b => ?_, fun k => ?_, fun s hs => ?_⟩
    · rw [Loop.foldlM_succ, hfold]
      exact hclose
    · by_cases hb : b = m
      · rw [hb, if_pos (Nat.lt_succ_self m), closed, RegionList.put_regions_self, hopen]
      · have hiff : b < m + 1 ↔ b < m := by omega
        rw [closed, RegionList.put_regions_of_ne _ hb, hregions]
        simp only [hiff]
    · rw [closed_next, hnext, hopen]
      have hiff : (∃ b < m + 1, k = (t.reg.regions b).iterator_id) ↔
          k = (t.reg.regions m).iterator_id ∨ ∃ b < m, k = (t.reg.regions b).iterator_id := by
        rw [Nat.exists_lt_succ_right, or_comm]
      by_cases hk : k = (t.reg.regions m).iterator_id
      · rw [if_pos hk, if_pos (hiff.mpr (.inl hk))]
      · rw [if_neg hk]
        simp only [hiff, hk, false_or]
    · obtain ⟨s', hfold', hs'⟩ := hagree s hs
      obtain ⟨s'', hclosed, hs''⟩ := closed_agree hlast' hs'
      have hclose' : (t'.withRuns s').close m = some ((t'.withRuns s').closed m) := by
        refine close_eq (show m < t'.reg.maxRegions by omega) ?_
        have hmax' := hs'.maxRuns
        show (t'.reg.regions m).iterator_id < s'.maxRuns
        omega
      refine ⟨s'', ?_, hs''⟩
      rw [Loop.foldlM_succ, hfold']
      exact hclose'.trans (congrArg some hclosed)

end Extraction

-- ---------------------------------------------------------------------------
-- extractRegions
-- ---------------------------------------------------------------------------

/-- On connected runs, `extractRegions` stays within both tables, and its
result depends on the used runs only. -/
theorem extractRegions_spec {reglist : RegionList} {base : RunList}
    (hroot : Rooted base.runs base.usedRuns) (hused : base.usedRuns ≤ base.maxRuns)
    (hregs : 0 < reglist.maxRegions) :
    ∃ reg rmap, extractRegions reglist base = some (reg, rmap) ∧ rmap.usedRuns = base.usedRuns ∧
      ∀ s, base.Agree base.usedRuns s → ∃ s', extractRegions reglist s = some (reg, s') ∧
        rmap.Agree base.usedRuns s' := by
  have hstart : Extracting base 0 ⟨base, reglist, 0⟩ :=
    ⟨rfl, rfl, fun _ _ => rfl, fun _ hk => absurd hk (Nat.not_lt_zero _), hregs,
      fun _ hb => absurd hb (Nat.not_lt_zero _)⟩
  obtain ⟨t, full, hruns, husedt, hinv, hruns'⟩ :=
    visitRuns_spec hroot hused base.usedRuns hstart (by omega)
  have hruns' (s : RunList) (hs : base.Agree base.usedRuns s) : ∃ s',
      Extraction.visitRuns s.usedRuns 0 ⟨s, reglist, 0⟩ = some (t.withRuns s', full) ∧
        t.rmap.Agree base.usedRuns s' := by
    rw [hs.usedRuns]
    exact hruns' s hs
  cases full with
  | true =>
    refine ⟨{ t.reg with usedRegions := t.reg.maxRegions }, t.rmap, by simp [extractRegions, hruns],
      husedt, fun s hs => ?_⟩
    obtain ⟨s', hruns', hs'⟩ := hruns' s hs
    exact ⟨s', by simp [extractRegions, hruns', Extraction.withRuns], hs'⟩
  | false =>
    have hinv := hinv rfl
    rw [Nat.zero_add] at hinv
    obtain ⟨t', hclose, -, hused', -, -, -, -, hclose'⟩ :=
      Extraction.closeAll_spec (by rw [hinv.maxRuns]; exact hused) (Nat.le_of_lt hinv.room) hinv.last
        t.n (Nat.le_refl _)
    refine ⟨{ t'.reg with usedRegions := t'.n }, t'.rmap, by simp [extractRegions, hruns, hclose],
      hused'.trans husedt, fun s hs => ?_⟩
    obtain ⟨s', hruns', hs'⟩ := hruns' s hs
    obtain ⟨s'', hclose'', hs''⟩ := hclose' s' hs'
    refine ⟨s'', ?_, hs''⟩
    have hn : (t.withRuns s').n = t.n := rfl
    simp only [extractRegions, hruns', hn, hclose'', Option.bind_eq_bind, Option.bind_some,
      Bool.false_eq_true, if_false]
    rfl

end LARCmaCS.CMVision
