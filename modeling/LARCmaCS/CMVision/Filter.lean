import LARCmaCS.CMVision.ColorLists

/-!
# The region filter

`RegionFilter` of `cmvision_region.h` walks along a list of regions and leaves
off early. On a list in descending area it finds what a test of every region
would find (`drain_init`), so on a sorted colour list too
(`drain_colorRegions`).
-/

namespace LARCmaCS.CMVision

structure Range (openMin openMax : Bool) where
  min : Int
  max : Int

def Range.inside {openMin openMax : Bool} (r : Range openMin openMax) (v : Int) : Bool :=
  (if openMin then r.min < v else r.min ≤ v) && (if openMax then v < r.max else v ≤ r.max)

abbrev ClosedRangeInt := Range false false

structure RegionBox where
  area : Int
  x1 : Int
  y1 : Int
  x2 : Int
  y2 : Int
  deriving DecidableEq

def RegionBox.width (reg : RegionBox) : Int := reg.x2 - reg.x1 + 1
def RegionBox.height (reg : RegionBox) : Int := reg.y2 - reg.y1 + 1

/-- `reg` is the rest of the list, from the region that the pointer points to. -/
structure RegionFilter where
  reg : List RegionBox
  w : Int
  h : Int
  area : ClosedRangeInt
  width : ClosedRangeInt
  height : ClosedRangeInt

namespace RegionFilter

def check (f : RegionFilter) (reg : RegionBox) : Bool :=
  let w := reg.x2 - reg.x1 + 1
  let h := reg.y2 - reg.y1 + 1
  f.area.inside reg.area && f.width.inside w && f.height.inside h

def init (f : RegionFilter) (regionList : List RegionBox) : RegionFilter :=
  { f with reg := regionList.dropWhile fun reg => reg.area > f.area.max }

def search (f : RegionFilter) : List RegionBox → Option RegionBox × RegionFilter
  | [] => (none, { f with reg := [] })
  | reg :: next =>
    let f := { f with reg := reg :: next, w := reg.width, h := reg.height }
    if reg.area < f.area.min then (none, f)
    else if f.width.inside f.w && f.height.inside f.h then (some reg, { f with reg := next })
    else search f next

def getNext (f : RegionFilter) : Option RegionBox × RegionFilter := f.search f.reg

/-- What `getNext` returns until it returns 0; no result after `calls` calls. -/
def drain (f : RegionFilter) : (calls : Nat) → Option (List RegionBox)
  | 0 => none
  | calls + 1 =>
    match f.getNext with
    | (none, _) => some []
    | (some reg, f') => (drain f' calls).map (reg :: ·)

-- ---------------------------------------------------------------------------
-- Sorted lists
-- ---------------------------------------------------------------------------

def Descending (xs : List RegionBox) : Prop := xs.Pairwise fun a b => b.area ≤ a.area

instance (xs : List RegionBox) : Decidable (Descending xs) :=
  inferInstanceAs (Decidable (xs.Pairwise _))

theorem inside_iff {r : ClosedRangeInt} {v : Int} : r.inside v ↔ r.min ≤ v ∧ v ≤ r.max := by
  simp [Range.inside]

theorem check_iff {f : RegionFilter} {reg : RegionBox} :
    f.check reg ↔ (f.area.min ≤ reg.area ∧ reg.area ≤ f.area.max) ∧
      f.width.inside reg.width ∧ f.height.inside reg.height := by
  rw [check, Bool.and_eq_true, Bool.and_eq_true, inside_iff, and_assoc]
  rfl

theorem search_reg (f : RegionFilter) (xs ys : List RegionBox) :
    { f with reg := ys }.search xs = f.search xs := by
  cases xs <;> rfl

theorem drain_of_descending {f : RegionFilter} {xs : List RegionBox} (hreg : f.reg = xs)
    (hsorted : Descending xs) (hmax : ∀ reg ∈ xs, reg.area ≤ f.area.max) {calls : Nat}
    (hcalls : xs.length < calls) : f.drain calls = some (xs.filter f.check) := by
  induction xs generalizing f calls with
  | nil =>
    cases calls with
    | zero => cases hcalls
    | succ calls =>
      rw [drain, getNext, hreg]
      rfl
  | cons reg next ih =>
    obtain ⟨hsmaller, hnext⟩ := List.pairwise_cons.mp hsorted
    have hmax' : ∀ reg ∈ next, reg.area ≤ f.area.max :=
      fun r hr => hmax r (List.mem_cons_of_mem _ hr)
    let f' : RegionFilter := { f with reg := next, w := reg.width, h := reg.height }
    cases calls with
    | zero => cases hcalls
    | succ calls =>
      have hcalls : next.length < calls := Nat.lt_of_succ_lt_succ hcalls
      rw [drain, getNext, hreg, search]
      by_cases hsmall : reg.area < f.area.min
      · -- every later region is at most as large
        have hnone : (reg :: next).filter f.check = [] := by
          refine List.filter_eq_nil_iff.mpr fun r hr hcheck => ?_
          have hlarge := (check_iff.mp hcheck).1.1
          rcases List.mem_cons.mp hr with rfl | hr
          · omega
          · have := hsmaller r hr
            omega
        simp only [if_pos hsmall, hnone]
      · by_cases hmatch : f.width.inside reg.width && f.height.inside reg.height
        · have hcheck : f.check reg := check_iff.mpr
            ⟨⟨by omega, hmax reg List.mem_cons_self⟩, Bool.and_eq_true_iff.mp hmatch⟩
          have hrest : f'.drain calls = some (next.filter f.check) :=
            ih (f := f') rfl hnext hmax' hcalls
          simp only [if_neg hsmall, if_pos hmatch, List.filter_cons_of_pos hcheck]
          exact congrArg _ hrest
        · have hcheck : ¬ f.check reg := fun hcheck =>
            hmatch (Bool.and_eq_true_iff.mpr (check_iff.mp hcheck).2)
          have hrest : f'.drain (calls + 1) = some (next.filter f.check) :=
            ih (f := f') rfl hnext hmax' (Nat.lt_succ_of_lt hcalls)
          simp only [if_neg hsmall, if_neg hmatch, List.filter_cons_of_neg hcheck]
          rw [← hrest, drain, getNext, ← search_reg f' next (reg :: next)]

theorem filter_dropWhile {α : Type*} {p q : α → Bool} {xs : List α}
    (h : ∀ x, q x → ¬ p x) : (xs.dropWhile q).filter p = xs.filter p := by
  induction xs with
  | nil => rfl
  | cons x xs ih =>
    by_cases hq : q x
    · rw [List.dropWhile_cons_of_pos hq, ih, List.filter_cons_of_neg (h x hq)]
    · rw [List.dropWhile_cons_of_neg hq]

theorem le_of_mem_dropWhile {xs : List RegionBox} {max : Int} (hsorted : Descending xs) :
    ∀ reg ∈ xs.dropWhile (fun reg => reg.area > max), reg.area ≤ max := by
  induction xs with
  | nil => intro reg hreg; cases hreg
  | cons x xs ih =>
    obtain ⟨hsmaller, hrest⟩ := List.pairwise_cons.mp hsorted
    intro reg hreg
    by_cases hx : x.area > max
    · rw [List.dropWhile_cons_of_pos (by simpa using hx)] at hreg
      exact ih hrest reg hreg
    · rw [List.dropWhile_cons_of_neg (by simpa using hx)] at hreg
      rcases List.mem_cons.mp hreg with rfl | hreg
      · omega
      · have := hsmaller reg hreg
        omega

/-- One call more than there are regions is enough. -/
theorem drain_init (f : RegionFilter) {regionList : List RegionBox}
    (hsorted : Descending regionList) {calls : Nat} (hcalls : regionList.length < calls) :
    (f.init regionList).drain calls = some (regionList.filter f.check) := by
  have hsuffix := List.dropWhile_suffix (l := regionList) fun reg => reg.area > f.area.max
  have hlarge (reg : RegionBox) (hreg : decide (reg.area > f.area.max)) : ¬ f.check reg := by
    intro hcheck
    have hmax := (check_iff.mp hcheck).1.2
    have hreg := of_decide_eq_true hreg
    omega
  rw [← filter_dropWhile hlarge]
  exact drain_of_descending rfl (hsorted.sublist hsuffix.sublist) (le_of_mem_dropWhile hsorted)
    (Nat.lt_of_le_of_lt hsuffix.length_le hcalls)

theorem drain_init_four :
    let regionList : List RegionBox :=
      [⟨90, 0, 0, 9, 9⟩, ⟨40, 0, 0, 4, 9⟩, ⟨30, 2, 1, 31, 1⟩, ⟨2, 5, 5, 5, 6⟩]
    Descending regionList ∧
      (RegionFilter.init ⟨[], 0, 0, ⟨10, 50⟩, ⟨1, 20⟩, ⟨1, 20⟩⟩ regionList).drain 5 =
        some [⟨40, 0, 0, 4, 9⟩] := by
  refine ⟨by decide, ?_⟩
  exact (drain_init _ (by decide) (by decide)).trans (by decide)

-- ---------------------------------------------------------------------------
-- Sorted colour lists
-- ---------------------------------------------------------------------------

def box (reg : Region) : RegionBox where
  area := reg.area
  x1 := reg.x1
  y1 := reg.y1
  x2 := reg.x2
  y2 := reg.y2

/-- The filter on the list of a colour finds the regions of the table that it accepts. -/
theorem drain_colorRegions (f : RegionFilter) {colors : ColorRegionList} {reglist : RegionList}
    {minArea : Int} {c : Nat} {xs : List Nat} (h : colors.Complete reglist minArea c xs)
    {calls : Nat} (hcalls : (colors.colorRegions c).num < calls) :
    (f.init (xs.map fun b => box (reglist.regions b))).drain calls =
      some ((xs.filter fun b => f.check (box (reglist.regions b))).map fun b =>
        box (reglist.regions b)) := by
  rw [drain_init f, List.filter_map]
  · rfl
  · refine List.pairwise_map.mpr (h.descending.imp fun {a b} hab => ?_)
    unfold RegionList.areaOf at hab
    simp only [box]
    omega
  · rwa [List.length_map, ← h.num]

-- ---------------------------------------------------------------------------
-- Loops over the regions of a table
-- ---------------------------------------------------------------------------

section Table

variable (f : RegionFilter) (regs : Nat → Region)

/-- `getNext` on the regions of a table: which region it finds, and the rest of
the list behind it. -/
def next : List Nat → Option (Nat × List Nat)
  | [] => none
  | r :: xs =>
    if (box (regs r)).area < f.area.min then none
    else if f.width.inside (box (regs r)).width && f.height.inside (box (regs r)).height then
      some (r, xs)
    else next xs

theorem next_with (ys : List RegionBox) (w h : Int) (xs : List Nat) :
    next { f with reg := ys, w := w, h := h } regs xs = next f regs xs := by
  induction xs with
  | nil => rfl
  | cons r xs ih => rw [next, next, ih]

theorem search_map (xs : List Nat) :
    (f.search (xs.map fun r => box (regs r))).1 =
      (f.next regs xs).map fun found => box (regs found.1) := by
  induction xs generalizing f with
  | nil => rfl
  | cons r xs ih =>
    rw [List.map_cons, search, next]
    dsimp only
    split
    · rfl
    · split
      · rfl
      · rw [ih, next_with]

variable {σ : Type*} (body : σ → Nat → Option σ)

/-- `while ((reg = getNext()) != 0)` around `body`; no result after `calls` calls. -/
def forEach : (calls : Nat) → List Nat → σ → Option σ
  | 0, _, _ => none
  | calls + 1, xs, s =>
    match f.next regs xs with
    | none => some s
    | some (r, rest) => do
      let s ← body s r
      forEach calls rest s

def forEachFrom (calls : Nat) (xs : List Nat) (s : σ) : Option σ :=
  f.forEach regs body calls (xs.dropWhile fun r => (box (regs r)).area > f.area.max) s

variable {f regs}

theorem forEach_of_descending {xs : List Nat}
    (hsorted : xs.Pairwise fun a b => (box (regs b)).area ≤ (box (regs a)).area)
    (hmax : ∀ r ∈ xs, (box (regs r)).area ≤ f.area.max) {calls : Nat} (hcalls : xs.length < calls)
    (s : σ) :
    f.forEach regs body calls xs s =
      (xs.filter fun r => f.check (box (regs r))).foldlM body s := by
  induction xs generalizing calls s with
  | nil =>
    cases calls with
    | zero => cases hcalls
    | succ calls => rfl
  | cons r xs ih =>
    obtain ⟨hsmaller, hnext⟩ := List.pairwise_cons.mp hsorted
    have hmax' : ∀ r ∈ xs, (box (regs r)).area ≤ f.area.max :=
      fun r hr => hmax r (List.mem_cons_of_mem _ hr)
    cases calls with
    | zero => cases hcalls
    | succ calls =>
      have hcalls : xs.length < calls := Nat.lt_of_succ_lt_succ hcalls
      rw [forEach, next]
      by_cases hsmall : (box (regs r)).area < f.area.min
      · -- every later region is at most as large
        have hnone : (r :: xs).filter (fun r => f.check (box (regs r))) = [] := by
          refine List.filter_eq_nil_iff.mpr fun b hb hcheck => ?_
          have hlarge := (check_iff.mp hcheck).1.1
          rcases List.mem_cons.mp hb with rfl | hb
          · omega
          · have := hsmaller b hb
            omega
        rw [if_pos hsmall, hnone]
        rfl
      · by_cases hmatch : f.width.inside (box (regs r)).width &&
            f.height.inside (box (regs r)).height
        · have hcheck : f.check (box (regs r)) := check_iff.mpr
            ⟨⟨by omega, hmax r List.mem_cons_self⟩, Bool.and_eq_true_iff.mp hmatch⟩
          have hfilter : (r :: xs).filter (fun r => f.check (box (regs r))) =
              r :: xs.filter fun r => f.check (box (regs r)) := List.filter_cons_of_pos hcheck
          rw [if_neg hsmall, if_pos hmatch, hfilter, List.foldlM_cons]
          exact Option.bind_congr fun s _ => ih hnext hmax' hcalls s
        · have hcheck : ¬ f.check (box (regs r)) := fun hcheck =>
            hmatch (Bool.and_eq_true_iff.mpr (check_iff.mp hcheck).2)
          have hfilter : (r :: xs).filter (fun r => f.check (box (regs r))) =
              xs.filter fun r => f.check (box (regs r)) := List.filter_cons_of_neg hcheck
          rw [if_neg hsmall, if_neg hmatch, hfilter,
            ← ih hnext hmax' (Nat.lt_succ_of_lt hcalls) s, forEach]

/-- On a sorted list the loop runs over the regions that the filter accepts. -/
theorem forEachFrom_eq {xs : List Nat}
    (hsorted : xs.Pairwise fun a b => (box (regs b)).area ≤ (box (regs a)).area) {calls : Nat}
    (hcalls : xs.length < calls) (s : σ) :
    f.forEachFrom regs body calls xs s =
      (xs.filter fun r => f.check (box (regs r))).foldlM body s := by
  have hsuffix := List.dropWhile_suffix (l := xs) fun r => (box (regs r)).area > f.area.max
  have hlarge (r : Nat) (hr : decide ((box (regs r)).area > f.area.max)) :
      ¬ f.check (box (regs r)) := by
    intro hcheck
    have hmax := (check_iff.mp hcheck).1.2
    have hr := of_decide_eq_true hr
    omega
  rw [← filter_dropWhile hlarge]
  refine forEach_of_descending body (hsorted.sublist hsuffix.sublist) (fun r hr => ?_)
    (Nat.lt_of_le_of_lt hsuffix.length_le hcalls) s
  have hmap : box (regs r) ∈ (xs.map fun r => box (regs r)).dropWhile
      (fun reg => reg.area > f.area.max) := by
    rw [List.dropWhile_map]
    exact List.mem_map_of_mem hr
  exact le_of_mem_dropWhile (List.pairwise_map.mpr hsorted) _ hmap

end Table

end RegionFilter

end LARCmaCS.CMVision
