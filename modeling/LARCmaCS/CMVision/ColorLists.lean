import LARCmaCS.Lib.LinkedList
import LARCmaCS.Lib.RadixSort
import LARCmaCS.CMVision.Extract

/-!
# The regions of each colour

`separateRegions` and `sortRegions` of `cmvision_region.cpp`: the regions of a
table are threaded through their `next` fields into one list for each colour,
and every list is sorted by a radix sort that moves its regions between linked
lists. `sortRegions_separateRegions`: each list ends up with the regions of its
colour that are large enough, in descending area.
-/

namespace LARCmaCS.CMVision

open Linked

-- ---------------------------------------------------------------------------
-- separateRegions
-- ---------------------------------------------------------------------------

structure RegionLinkedList where
  first : Option Nat
  num : Nat

def RegionLinkedList.reset : RegionLinkedList := ⟨none, 0⟩

/-- The lists of the colours, and the `next` fields of the table's regions. -/
structure ColorRegionList where
  numColorRegions : Nat
  colorRegions : Nat → RegionLinkedList
  next : Nat → Option Nat

namespace ColorRegionList

/-- `color[c].insertFront(&reg[r])` -/
def insertFront (colors : ColorRegionList) (c r : Nat) : ColorRegionList :=
  { colors with
    next := Function.update colors.next r (colors.colorRegions c).first
    colorRegions := Function.update colors.colorRegions c
      ⟨some r, (colors.colorRegions c).num + 1⟩ }

/-- `color[c].setFront(first)`, with the `next` fields that belong to it. -/
def setFront (colors : ColorRegionList) (c : Nat) (next : Nat → Option Nat) (first : Option Nat) :
    ColorRegionList :=
  { colors with
    next
    colorRegions := Function.update colors.colorRegions c ⟨first, (colors.colorRegions c).num⟩ }

def reset (colors : ColorRegionList) : ColorRegionList :=
  { colors with
    colorRegions := fun c =>
      if c < colors.numColorRegions then .reset else colors.colorRegions c }

end ColorRegionList

def separateRegion (reglist : RegionList) (minArea : Int) (s : ColorRegionList × Nat) (i : Nat) :
    ColorRegionList × Nat :=
  let p := reglist.regions i
  let c := p.color.toNat
  if s.1.numColorRegions ≤ c then s
  else if minArea ≤ p.area then
    (s.1.insertFront c i, if s.2 < p.area then p.area else s.2)
  else s

/-- The lists, and the largest area on them. -/
def separateRegions (colors : ColorRegionList) (reglist : RegionList) (minArea : Int) :
    ColorRegionList × Nat :=
  (List.range reglist.usedRegions).foldl (separateRegion reglist minArea) (colors.reset, 0)

-- ---------------------------------------------------------------------------
-- sortRegions
-- ---------------------------------------------------------------------------

def CMV_RBITS : Nat := 6
def CMV_RADIX : Nat := 1 <<< CMV_RBITS
def CMV_RMASK : Nat := CMV_RADIX - 1

def slot (area i : Nat) : Nat := area >>> (CMV_RBITS * i) &&& CMV_RMASK

/-- The lists of the sort: that of `none` begins at `list`, that of `some j` at
`tbl[j]`. -/
abbrev Sorting := Stacks Nat (Option Nat)

/-- A pass, whose two kinds of `while` loops see at most `fuel` regions each. -/
def sortPass (fuel : Nat) (area : Nat → Nat) (s : Sorting) (i : Nat) : Option Sorting := do
  let s ← s.drain fuel (fun p => some (slot (area p) i)) none
  (List.range CMV_RADIX).foldlM (fun s j => s.drain fuel (fun _ => none) (some j)) s

def sortRegionListByArea (fuel : Nat) (area : Nat → Nat) (next : Nat → Option Nat)
    (list : Option Nat) (passes : Nat) : Option ((Nat → Option Nat) × Option Nat) :=
  match list with
  | none => some (next, list)
  | some p =>
    if next p = none then some (next, list)
    else
      ((List.range passes).foldlM (sortPass fuel area)
        ⟨next, fun k => if k = none then list else none⟩).map fun s => (s.next, s.head none)

def countPasses (maxArea : Nat) : Nat :=
  if h : maxArea = 0 then 0 else countPasses (maxArea >>> CMV_RBITS) + 1
termination_by maxArea
decreasing_by
  rw [Nat.shiftRight_eq_div_pow]
  exact Nat.div_lt_self (Nat.pos_of_ne_zero h) (by decide)

def sortColor (fuel : Nat) (reglist : RegionList) (passes : Nat) (colors : ColorRegionList)
    (i : Nat) : Option ColorRegionList :=
  (sortRegionListByArea fuel (fun p => (reglist.regions p).area) colors.next
    (colors.colorRegions i).first passes).map fun (next, first) => colors.setFront i next first

def sortRegions (fuel : Nat) (colors : ColorRegionList) (reglist : RegionList) (maxArea : Nat) :
    Option ColorRegionList :=
  (List.range colors.numColorRegions).foldlM (sortColor fuel reglist (countPasses maxArea)) colors

-- ---------------------------------------------------------------------------
-- The sort of one list
-- ---------------------------------------------------------------------------

theorem slot_eq_digit (area i : Nat) : slot area i = RadixSort.digit CMV_RADIX i area := by
  have hmask : CMV_RMASK = 2 ^ CMV_RBITS - 1 := rfl
  have hradix : CMV_RADIX = 2 ^ CMV_RBITS := rfl
  rw [slot, hmask, Nat.and_two_pow_sub_one_eq_mod, Nat.shiftRight_eq_div_pow, RadixSort.digit,
    hradix, Nat.pow_mul]

theorem lt_radix_pow_countPasses (maxArea : Nat) : maxArea < CMV_RADIX ^ countPasses maxArea := by
  induction maxArea using countPasses.induct with
  | case1 =>
    rw [countPasses]
    decide
  | case2 maxArea hne ih =>
    have hquot : maxArea >>> CMV_RBITS = maxArea / CMV_RADIX := Nat.shiftRight_eq_div_pow ..
    rw [countPasses, dif_neg hne, Nat.pow_succ]
    rw [hquot] at ih ⊢
    exact Nat.lt_mul_of_div_lt ih (by decide)

def alone (xs : List Nat) (k : Option Nat) : List Nat := if k = none then xs else []

/-- The lists when `tbl[0]`, …, `tbl[n - 1]` have been moved back. -/
def moved (d : Nat → Nat) (n : Nat) (xs : List Nat) : Option Nat → List Nat
  | none => RadixSort.byDigit d n xs
  | some j => if j < n then [] else (xs.filter (d · = j)).reverse

theorem scattered_alone (d : Nat → Nat) (xs : List Nat) :
    Stacks.scattered (fun p => some (d p)) xs (Function.update (alone xs) none []) =
      moved d 0 xs := by
  funext k
  cases k with
  | none => simp [Stacks.scattered, moved, RadixSort.byDigit]
  | some j => simp [Stacks.scattered, moved, alone]

theorem scattered_moved (d : Nat → Nat) (n : Nat) (xs : List Nat) :
    Stacks.scattered (fun _ => none) (moved d n xs (some n))
        (Function.update (moved d n xs) (some n) []) =
      moved d (n + 1) xs := by
  funext k
  cases k with
  | none => simp [Stacks.scattered, moved, RadixSort.byDigit]
  | some j =>
    rcases eq_or_ne j n with rfl | hj
    · simp [Stacks.scattered, moved]
    · have hlt : j < n + 1 ↔ j < n := by omega
      simp [Stacks.scattered, moved, Function.update_of_ne, hj, hlt]

theorem drain_moved {fuel : Nat} {d : Nat → Nat} {xs : List Nat} {s : Sorting} (n : Nat)
    (hs : s.Holds (moved d n xs)) (hfuel : xs.length ≤ fuel) :
    ∃ s', s.drain fuel (fun _ => none) (some n) = some s' ∧ s'.Holds (moved d (n + 1) xs) ∧
      ∀ y ∉ xs, s'.next y = s.next y := by
  have hlist : moved d n xs (some n) = (xs.filter (d · = n)).reverse := if_neg n.lt_irrefl
  have hlength : (moved d n xs (some n)).length ≤ fuel := by
    rw [hlist, List.length_reverse]
    exact Nat.le_trans (List.length_filter_le _ _) hfuel
  obtain ⟨s', hdrain, hholds, hframe⟩ := Stacks.drain_spec (fun _ => none) hs _ hlength
  rw [scattered_moved] at hholds
  refine ⟨s', hdrain, hholds, fun y hy => hframe y fun hmem => hy ?_⟩
  rw [hlist, List.mem_reverse] at hmem
  exact List.mem_of_mem_filter hmem

theorem foldlM_drain_moved {fuel : Nat} {d : Nat → Nat} {xs : List Nat} {s : Sorting} (n : Nat)
    (hs : s.Holds (moved d 0 xs)) (hfuel : xs.length ≤ fuel) :
    ∃ s', (List.range n).foldlM (fun s j => s.drain fuel (fun _ => none) (some j)) s = some s' ∧
      s'.Holds (moved d n xs) ∧ ∀ y ∉ xs, s'.next y = s.next y := by
  refine Loop.invariant (P := fun n (t : Sorting) => t.Holds (moved d n xs) ∧
    ∀ y ∉ xs, t.next y = s.next y) ⟨hs, fun _ _ => rfl⟩ fun n _ t ⟨ht, hframe⟩ => ?_
  obtain ⟨t', hdrain, ht', hframe'⟩ := drain_moved n ht hfuel
  exact ⟨t', hdrain, ht', fun y hy => (hframe' y hy).trans (hframe y hy)⟩

theorem moved_radix {d : Nat → Nat} {n : Nat} {xs : List Nat} (hd : ∀ x ∈ xs, d x < n) :
    moved d n xs = alone (RadixSort.byDigit d n xs) := by
  funext k
  cases k with
  | none => rfl
  | some j =>
    by_cases hj : j < n
    · exact if_pos hj
    · have hempty : xs.filter (d · = j) = [] :=
        List.filter_eq_nil_iff.mpr fun x hx => by
          have := hd x hx
          simp only [decide_eq_true_eq]
          omega
      simp [moved, alone, hempty]

theorem sortPass_spec {fuel : Nat} {xs : List Nat} {s : Sorting} (area : Nat → Nat) (i : Nat)
    (hs : s.Holds (alone xs)) (hfuel : xs.length ≤ fuel) :
    ∃ s', sortPass fuel area s i = some s' ∧
      s'.Holds (alone (RadixSort.byDigit (fun p => RadixSort.digit CMV_RADIX i (area p))
        CMV_RADIX xs)) ∧
      ∀ y ∉ xs, s'.next y = s.next y := by
  obtain ⟨t, hsplit, ht, hframe⟩ :=
    Stacks.drain_spec (fun p => some (slot (area p) i)) hs none hfuel
  have halone : alone xs none = xs := rfl
  rw [halone, scattered_alone] at ht
  obtain ⟨s', hloop, hs', hframe'⟩ := foldlM_drain_moved CMV_RADIX ht hfuel
  have hdigit (p : Nat) : slot (area p) i < CMV_RADIX := by
    rw [slot_eq_digit]
    exact Nat.mod_lt _ (by decide)
  rw [moved_radix fun x _ => hdigit x] at hs'
  simp only [slot_eq_digit] at hs'
  refine ⟨s', ?_, hs', fun y hy => (hframe' y hy).trans (hframe y hy)⟩
  rw [sortPass, hsplit, Option.bind_eq_bind, Option.bind_some]
  exact hloop

theorem foldlM_sortPass {fuel : Nat} {xs : List Nat} {s : Sorting} (area : Nat → Nat) (n : Nat)
    (hs : s.Holds (alone xs)) (hfuel : xs.length ≤ fuel) :
    ∃ s', (List.range n).foldlM (sortPass fuel area) s = some s' ∧
      s'.Holds (alone (RadixSort.passes area CMV_RADIX n xs)) ∧
      ∀ y ∉ xs, s'.next y = s.next y := by
  refine Loop.invariant (P := fun n (t : Sorting) =>
      t.Holds (alone (RadixSort.passes area CMV_RADIX n xs)) ∧ ∀ y ∉ xs, t.next y = s.next y)
    ⟨hs, fun _ _ => rfl⟩ fun n _ t ⟨ht, hframe⟩ => ?_
  have hperm := RadixSort.passes_perm area (show 0 < CMV_RADIX by decide) n xs
  have hlength : (RadixSort.passes area CMV_RADIX n xs).length ≤ fuel := by
    rwa [hperm.length_eq]
  obtain ⟨t', hpass, ht', hframe'⟩ := sortPass_spec area n ht hlength
  refine ⟨t', hpass, ht', fun y hy => ?_⟩
  exact (hframe' y fun hmem => hy (hperm.mem_iff.mp hmem)).trans (hframe y hy)

theorem sortRegionListByArea_spec {fuel : Nat} {next : Nat → Option Nat} {list : Option Nat}
    {xs : List Nat} (area : Nat → Nat) (n : Nat) (hlist : Chain next list xs) (hxs : xs.Nodup)
    (hfuel : xs.length ≤ fuel) :
    ∃ next' list', sortRegionListByArea fuel area next list n = some (next', list') ∧
      Chain next' list' (RadixSort.passes area CMV_RADIX n xs) ∧
      ∀ y ∉ xs, next' y = next y := by
  have hperm := RadixSort.passes_perm area (show 0 < CMV_RADIX by decide) n xs
  match xs with
  | [] =>
    cases hlist
    rw [hperm.eq_nil]
    exact ⟨next, none, rfl, rfl, fun _ _ => rfl⟩
  | [p] =>
    obtain ⟨rfl, hend⟩ := hlist
    rw [List.perm_singleton.mp hperm]
    exact ⟨next, some p, if_pos hend, ⟨rfl, hend⟩, fun _ _ => rfl⟩
  | p :: q :: xs =>
    have hmore : next p ≠ none := by
      rw [hlist.2.1]
      exact Option.some_ne_none q
    have hs : Stacks.Holds ⟨next, fun k : Option Nat => if k = none then list else none⟩
        (alone (p :: q :: xs)) :=
      { chain := fun k => by
          cases k with
          | none => exact hlist
          | some j => rfl
        nodup := fun k => by
          cases k with
          | none => exact hxs
          | some j => exact List.nodup_nil
        disjoint := fun k l hne => by
          cases k with
          | none =>
            cases l with
            | none => exact absurd rfl hne
            | some j => exact List.disjoint_nil_right _
          | some i => exact List.disjoint_nil_left _ }
    obtain ⟨s', hloop, hs', hframe⟩ := foldlM_sortPass area n hs hfuel
    refine ⟨s'.next, s'.head none, ?_, hs'.chain none, hframe⟩
    obtain ⟨rfl, -⟩ := hlist
    rw [sortRegionListByArea, if_neg hmore, hloop]
    rfl

-- ---------------------------------------------------------------------------
-- The lists of the colours
-- ---------------------------------------------------------------------------

def RegionList.colorOf (reglist : RegionList) (b : Nat) : Nat := (reglist.regions b).color.toNat

def RegionList.areaOf (reglist : RegionList) (b : Nat) : Nat := (reglist.regions b).area

def listed (reglist : RegionList) (numColors : Nat) (minArea : Int) (n : Nat) : List Nat :=
  (List.range n).filter fun b => reglist.colorOf b < numColors ∧ minArea ≤ reglist.areaOf b

/-- The list of each colour, in reverse table order. -/
def separated (reglist : RegionList) (numColors : Nat) (minArea : Int) (n : Nat) :
    Nat → List Nat :=
  Stacks.scattered reglist.colorOf (listed reglist numColors minArea n) fun _ => []

theorem mem_separated {reglist : RegionList} {numColors n b c : Nat} {minArea : Int} :
    b ∈ separated reglist numColors minArea n c ↔
      b < n ∧ (c < numColors ∧ minArea ≤ reglist.areaOf b) ∧ reglist.colorOf b = c := by
  simp only [separated, Stacks.scattered, listed, List.append_nil, List.mem_reverse,
    List.mem_filter, List.mem_range, decide_eq_true_eq, and_assoc]
  constructor
  · rintro ⟨hn, hc, harea, rfl⟩
    exact ⟨hn, hc, harea, rfl⟩
  · rintro ⟨hn, hc, harea, rfl⟩
    exact ⟨hn, hc, harea, rfl⟩

theorem pairwise_separated (reglist : RegionList) (numColors : Nat) (minArea : Int) (n c : Nat) :
    (separated reglist numColors minArea n c).Pairwise (· > ·) := by
  rw [separated, Stacks.scattered, List.append_nil, List.pairwise_reverse]
  exact (List.pairwise_lt_range.filter _).filter _

theorem length_separated_le (reglist : RegionList) (numColors : Nat) (minArea : Int) (n c : Nat) :
    (separated reglist numColors minArea n c).length ≤ n := by
  rw [separated, Stacks.scattered, List.append_nil, List.length_reverse]
  calc _ ≤ (listed reglist numColors minArea n).length := List.length_filter_le _ _
    _ ≤ (List.range n).length := List.length_filter_le _ _
    _ = n := List.length_range

theorem listed_succ (reglist : RegionList) (numColors : Nat) (minArea : Int) (n : Nat) :
    listed reglist numColors minArea (n + 1) =
      if reglist.colorOf n < numColors ∧ minArea ≤ reglist.areaOf n then
        listed reglist numColors minArea n ++ [n]
      else listed reglist numColors minArea n := by
  rw [listed, List.range_succ, List.filter_append]
  split
  · rename_i h
    rw [List.filter_cons_of_pos (by simpa using h)]
    rfl
  · rename_i h
    rw [List.filter_cons_of_neg (by simpa using h), List.filter_nil, List.append_nil]
    rfl

namespace ColorRegionList

def threads (colors : ColorRegionList) : Stacks Nat Nat where
  next := colors.next
  head := fun c =>
    if c < colors.numColorRegions then (colors.colorRegions c).first else none

theorem threads_insertFront {colors : ColorRegionList} {c : Nat} (hc : c < colors.numColorRegions)
    (r : Nat) : (colors.insertFront c r).threads = colors.threads.push c r := by
  unfold threads insertFront Stacks.push
  simp only [if_pos hc]
  congr 1
  funext k
  rcases eq_or_ne k c with rfl | hk
  · rw [Function.update_self, Function.update_self, if_pos hc]
  · rw [Function.update_of_ne hk, Function.update_of_ne hk]

@[simp] theorem insertFront_self (colors : ColorRegionList) (c r : Nat) :
    (colors.insertFront c r).colorRegions c = ⟨some r, (colors.colorRegions c).num + 1⟩ :=
  Function.update_self ..

theorem insertFront_of_ne {colors : ColorRegionList} {c d r : Nat} (h : d ≠ c) :
    (colors.insertFront c r).colorRegions d = colors.colorRegions d :=
  Function.update_of_ne h ..

@[simp] theorem setFront_self (colors : ColorRegionList) (c : Nat) (next : Nat → Option Nat)
    (first : Option Nat) :
    (colors.setFront c next first).colorRegions c = ⟨first, (colors.colorRegions c).num⟩ :=
  Function.update_self ..

theorem setFront_of_ne {colors : ColorRegionList} {c d : Nat} {next : Nat → Option Nat}
    {first : Option Nat} (h : d ≠ c) :
    (colors.setFront c next first).colorRegions d = colors.colorRegions d :=
  Function.update_of_ne h ..

/-- The first `n` regions have been separated; none of them is larger than `maxArea`. -/
structure Separated (reglist : RegionList) (numColors : Nat) (minArea : Int) (n : Nat)
    (s : ColorRegionList × Nat) : Prop where
  count : s.1.numColorRegions = numColors
  holds : s.1.threads.Holds (separated reglist numColors minArea n)
  num : ∀ c < numColors,
    (s.1.colorRegions c).num = (separated reglist numColors minArea n c).length
  area : ∀ b ∈ listed reglist numColors minArea n, reglist.areaOf b ≤ s.2

variable {reglist : RegionList} {numColors n : Nat} {minArea : Int} {s : ColorRegionList × Nat}

theorem Separated.step (h : Separated reglist numColors minArea n s) :
    Separated reglist numColors minArea (n + 1) (separateRegion reglist minArea s n) := by
  obtain ⟨rfl, hholds, hnum, harea⟩ := h
  have hsucc := listed_succ reglist s.1.numColorRegions minArea n
  have hstep : separateRegion reglist minArea s n =
      if reglist.colorOf n < s.1.numColorRegions ∧ minArea ≤ reglist.areaOf n then
        (s.1.insertFront (reglist.colorOf n) n,
          if s.2 < reglist.areaOf n then reglist.areaOf n else s.2)
      else s := by
    unfold separateRegion RegionList.colorOf RegionList.areaOf
    split_ifs <;> grind
  by_cases hlisted : reglist.colorOf n < s.1.numColorRegions ∧ minArea ≤ reglist.areaOf n
  · rw [if_pos hlisted] at hsucc hstep
    have hlists : separated reglist s.1.numColorRegions minArea (n + 1) =
        Function.update (separated reglist s.1.numColorRegions minArea n) (reglist.colorOf n)
          (n :: separated reglist s.1.numColorRegions minArea n (reglist.colorOf n)) := by
      rw [separated, hsucc, Stacks.scattered_concat]
      rfl
    have hnew (c : Nat) : n ∉ separated reglist s.1.numColorRegions minArea n c := fun hmem =>
      absurd (mem_separated.mp hmem).1 n.lt_irrefl
    rw [hstep]
    refine ⟨rfl, ?_, fun c hc => ?_, fun b hb => ?_⟩
    · rw [hlists, threads_insertFront hlisted.1]
      exact hholds.push hnew _
    · rw [hlists]
      rcases eq_or_ne c (reglist.colorOf n) with rfl | hne
      · rw [insertFront_self, Function.update_self, List.length_cons, hnum _ hc]
      · rw [insertFront_of_ne hne, Function.update_of_ne hne]
        exact hnum c hc
    · rw [hsucc, List.mem_append, List.mem_singleton] at hb
      rcases hb with hb | rfl
      · have := harea b hb
        grind
      · grind
  · rw [if_neg hlisted] at hsucc hstep
    rw [hstep]
    have hlists : separated reglist s.1.numColorRegions minArea (n + 1) =
        separated reglist s.1.numColorRegions minArea n := by
      rw [separated, hsucc]
      rfl
    refine ⟨rfl, ?_, fun c hc => ?_, ?_⟩
    · rwa [hlists]
    · rw [hlists]
      exact hnum c hc
    · rwa [hsucc]

theorem separated_separateRegions (colors : ColorRegionList) (reglist : RegionList)
    (minArea : Int) :
    Separated reglist colors.numColorRegions minArea reglist.usedRegions
      (separateRegions colors reglist minArea) := by
  rw [separateRegions]
  induction reglist.usedRegions with
  | zero =>
    refine ⟨rfl, ⟨fun c => ?_, fun _ => List.nodup_nil, fun _ _ _ => List.disjoint_nil_left _⟩,
      fun c hc => ?_, fun b hb => nomatch hb⟩
    · by_cases hc : c < colors.numColorRegions
      · simp [threads, reset, hc, RegionLinkedList.reset, separated, listed, Stacks.scattered,
          Chain]
      · simp [threads, reset, hc, separated, listed, Stacks.scattered, Chain]
    · simp [reset, hc, RegionLinkedList.reset, separated, listed, Stacks.scattered]
  | succ n ih =>
    rw [List.range_succ, List.foldl_append]
    exact ih.step

-- ---------------------------------------------------------------------------
-- The sorted lists
-- ---------------------------------------------------------------------------

def sorted (reglist : RegionList) (lists : Nat → List Nat) (passes n c : Nat) : List Nat :=
  if c < n then RadixSort.passes reglist.areaOf CMV_RADIX passes (lists c) else lists c

theorem sorted_perm (reglist : RegionList) (lists : Nat → List Nat) (passes n c : Nat) :
    (sorted reglist lists passes n c).Perm (lists c) := by
  unfold sorted
  split
  · exact RadixSort.passes_perm _ (by decide) _ _
  · exact .refl _

structure Sorted (reglist : RegionList) (lists : Nat → List Nat) (passes n : Nat)
    (before colors : ColorRegionList) : Prop where
  count : colors.numColorRegions = before.numColorRegions
  chain : ∀ c < before.numColorRegions,
    Chain colors.next (colors.colorRegions c).first (sorted reglist lists passes n c)
  num : ∀ c, (colors.colorRegions c).num = (before.colorRegions c).num

theorem Sorted.step {lists : Nat → List Nat} {passes n fuel : Nat}
    {before colors : ColorRegionList} (h : Sorted reglist lists passes n before colors)
    (hn : n < before.numColorRegions) (hlists : before.threads.Holds lists)
    (hfuel : (lists n).length ≤ fuel) :
    ∃ colors', sortColor fuel reglist passes colors n = some colors' ∧
      Sorted reglist lists passes (n + 1) before colors' := by
  have hunsorted : sorted reglist lists passes n n = lists n := if_neg n.lt_irrefl
  have hsorted : sorted reglist lists passes (n + 1) n =
      RadixSort.passes reglist.areaOf CMV_RADIX passes (lists n) := if_pos n.lt_succ_self
  have hchain := h.chain n hn
  rw [hunsorted] at hchain
  obtain ⟨next, first, hsort, hfirst, hframe⟩ :=
    sortRegionListByArea_spec reglist.areaOf passes hchain (hlists.nodup n) hfuel
  have hstep : sortColor fuel reglist passes colors n = some (colors.setFront n next first) := by
    unfold sortColor
    unfold RegionList.areaOf at hsort
    rw [hsort]
    rfl
  refine ⟨_, hstep, h.count, fun c hc => ?_, fun c => ?_⟩
  · rcases eq_or_ne c n with rfl | hne
    · rw [setFront_self, hsorted]
      exact hfirst
    · have hsame : sorted reglist lists passes (n + 1) c = sorted reglist lists passes n c := by
        simp only [sorted, show c < n + 1 ↔ c < n by omega]
      rw [setFront_of_ne hne, hsame]
      refine (h.chain c hc).congr fun x hx => hframe x fun hmem => ?_
      exact hlists.disjoint c n hne ((sorted_perm _ _ _ _ _).mem_iff.mp hx) hmem
  · rcases eq_or_ne c n with rfl | hne
    · rw [setFront_self]
      exact h.num c
    · rw [setFront_of_ne hne]
      exact h.num c

theorem sortRegions_spec {lists : Nat → List Nat} {fuel : Nat} {before : ColorRegionList}
    (reglist : RegionList) (maxArea : Nat) (hlists : before.threads.Holds lists)
    (hfuel : ∀ c, (lists c).length ≤ fuel) :
    ∃ after, sortRegions fuel before reglist maxArea = some after ∧
      Sorted reglist lists (countPasses maxArea) before.numColorRegions before after := by
  refine Loop.invariant (P := fun n colors =>
    Sorted reglist lists (countPasses maxArea) n before colors)
    ⟨rfl, fun c hc => ?_, fun _ => rfl⟩ fun n hn colors hcolors => ?_
  · have hchain := hlists.chain c
    have hhead : before.threads.head c = (before.colorRegions c).first := if_pos hc
    rwa [hhead] at hchain
  · exact hcolors.step hn hlists (hfuel n)

/-- The list of colour `c` is `xs`: the regions of the colour that are large
enough, in descending area, those of one area in reverse table order. -/
structure Complete (colors : ColorRegionList) (reglist : RegionList) (minArea : Int) (c : Nat)
    (xs : List Nat) : Prop where
  chain : Chain colors.next (colors.colorRegions c).first xs
  num : (colors.colorRegions c).num = xs.length
  nodup : xs.Nodup
  mem : ∀ b, b ∈ xs ↔
    b < reglist.usedRegions ∧ reglist.colorOf b = c ∧ minArea ≤ reglist.areaOf b
  descending : xs.Pairwise fun a b =>
    reglist.areaOf b < reglist.areaOf a ∨ reglist.areaOf a = reglist.areaOf b ∧ b < a

/-- Separated and sorted in as many passes as the largest area asks for, the
list of a colour is complete. -/
theorem Sorted.complete {before after : ColorRegionList} {maxArea c : Nat}
    (hbefore : Separated reglist numColors minArea reglist.usedRegions (before, maxArea))
    (h : Sorted reglist (separated reglist numColors minArea reglist.usedRegions)
      (countPasses maxArea) numColors before after) (hc : c < numColors) :
    ∃ xs, after.Complete reglist minArea c xs := by
  obtain ⟨hcount, -, hnum, harea⟩ := hbefore
  have hchain := h.chain c (hcount ▸ hc)
  rw [sorted, if_pos hc] at hchain
  have hperm := RadixSort.passes_perm reglist.areaOf (show 0 < CMV_RADIX by decide)
    (countPasses maxArea) (separated reglist numColors minArea reglist.usedRegions c)
  have horder := pairwise_separated reglist numColors minArea reglist.usedRegions c
  refine ⟨_, hchain, ?_, ?_, fun b => ?_, ?_⟩
  · rw [hperm.length_eq, h.num, hnum c hc]
  · exact hperm.nodup_iff.mpr (horder.imp fun hlt => Nat.ne_of_gt hlt)
  · rw [hperm.mem_iff, mem_separated]
    exact ⟨fun hb => ⟨hb.1, hb.2.2, hb.2.1.2⟩, fun hb => ⟨hb.1, ⟨hc, hb.2.2⟩, hb.2.1⟩⟩
  · refine RadixSort.pairwise_passes_of_lt (by decide) (fun b hb => ?_) horder
    obtain ⟨hused, hlarge, rfl⟩ := mem_separated.mp hb
    have hlisted : b ∈ listed reglist numColors minArea reglist.usedRegions := by
      simp only [listed, List.mem_filter, List.mem_range, decide_eq_true_eq]
      exact ⟨hused, hlarge⟩
    exact Nat.lt_of_le_of_lt (harea b hlisted) (lt_radix_pow_countPasses _)

theorem complete_lists (colors : ColorRegionList) (reglist : RegionList) (minArea : Int)
    {fuel : Nat} (hfuel : reglist.usedRegions ≤ fuel) :
    ∃ after,
      sortRegions fuel (separateRegions colors reglist minArea).1 reglist
        (separateRegions colors reglist minArea).2 = some after ∧
      after.numColorRegions = colors.numColorRegions ∧
      ∀ c < colors.numColorRegions, ∃ xs, after.Complete reglist minArea c xs := by
  have hseparated := separated_separateRegions colors reglist minArea
  obtain ⟨after, hsort, hsorted⟩ := sortRegions_spec reglist
    (separateRegions colors reglist minArea).2 hseparated.holds fun c =>
      Nat.le_trans (length_separated_le ..) hfuel
  refine ⟨after, hsort, hsorted.count.trans hseparated.count, fun c hc => ?_⟩
  rw [hseparated.count] at hsorted
  exact hsorted.complete hseparated hc

/-- The sort ends when its loops may see every region of the table once. -/
theorem sortRegions_separateRegions (colors : ColorRegionList) (reglist : RegionList)
    (minArea : Int) (more : Nat) :
    ∃ after,
      sortRegions (reglist.usedRegions + more) (separateRegions colors reglist minArea).1 reglist
        (separateRegions colors reglist minArea).2 = some after ∧
      after.numColorRegions = colors.numColorRegions ∧
      ∀ c < colors.numColorRegions, ∃ xs, after.Complete reglist minArea c xs :=
  complete_lists colors reglist minArea (Nat.le_add_right _ more)

end ColorRegionList

end LARCmaCS.CMVision
