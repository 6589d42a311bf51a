import LARCmaCS.CMPattern.Loading
import LARCmaCS.CMPattern.Matching
import LARCmaCS.Lib.Buffer
import LARCmaCS.Lib.Machine
import Mathlib.Algebra.Order.Ring.Int

/-!
# The chain of markers

`Pattern::copyMarkers` of `cmpattern_pattern.cpp` copies a vector of markers and
links them in order. The bound of the link loop is the length less one in
unsigned arithmetic, so the loop leaves the markers if there are none, and the
chain is built exactly for vectors that are neither empty nor longer than an
`int` can count (`buildsChain_iff`). Loading keeps the patterns linked and their
codes those of their colours (`intact_loadCells`).
-/

namespace LARCmaCS.CMPattern

open CMVision (Region ColorRegionList)
open Linked (Chain)
open Buffer (overwrite overwrite_nil overwrite_cons)

namespace Pattern

variable {K : Type*} {p p' : Pattern K} {mv : List (Marker K)} {i n : Nat}

-- ---------------------------------------------------------------------------
-- The loops
-- ---------------------------------------------------------------------------

theorem write_of_lt (h : i < p.num_markers) (m : Marker K) :
    p.write i m = some { p with markers := Function.update p.markers i m } := if_pos h

theorem write_of_le (h : p.num_markers ≤ i) (m : Marker K) : p.write i m = none :=
  if_neg (Int.not_lt.mpr h)

theorem copyFrom_eq (h : i + mv.length ≤ p.num_markers) :
    p.copyFrom i mv = some { p with markers := overwrite p.markers i mv } := by
  induction mv generalizing p i with
  | nil => rw [copyFrom, overwrite_nil]
  | cons m mv ih =>
    rw [List.length_cons] at h
    rw [copyFrom, write_of_lt (by omega), Option.bind_eq_bind, Option.bind_some,
      ih (by push_cast at h ⊢; omega), overwrite_cons]

theorem lt_of_copyFrom {k : Nat} (h : p.copyFrom i mv = some p') (hk : k < mv.length) :
    ((i + k : Nat) : Int) < p.num_markers := by
  induction mv generalizing p i k with
  | nil => exact absurd hk (Nat.not_lt_zero k)
  | cons m mv ih =>
    rw [copyFrom, Option.bind_eq_bind, Option.bind_eq_some_iff] at h
    obtain ⟨q, hwrite, hrest⟩ := h
    have hlt : i < p.num_markers := by
      by_contra hle
      rw [write_of_le (Int.not_lt.mp hle)] at hwrite
      cases hwrite
    rw [write_of_lt hlt] at hwrite
    obtain rfl := Option.some.inj hwrite
    cases k with
    | zero => exact hlt
    | succ k =>
      have hlast := ih hrest (Nat.lt_of_succ_lt_succ hk)
      rwa [Nat.add_assoc, Nat.add_comm 1 k] at hlast

def relink (arr : Nat → Marker K) (i n k : Nat) : Marker K :=
  if i ≤ k ∧ k < i + n then { arr k with next := some (k + 1) } else arr k

theorem linkFrom_eq (h : i + n ≤ p.num_markers) :
    p.linkFrom i n = some { p with markers := relink p.markers i n } := by
  induction n generalizing p i with
  | zero =>
    have hnothing : relink p.markers i 0 = p.markers := by
      funext k
      exact if_neg (by omega)
    rw [linkFrom, hnothing]
  | succ n ih =>
    have hrest : relink (Function.update p.markers i { p.markers i with next := some (i + 1) })
        (i + 1) n = relink p.markers i (n + 1) := by
      funext k
      rw [relink, relink]
      rcases Nat.lt_trichotomy k i with hlt | rfl | hgt
      · rw [if_neg (by omega), if_neg (by omega), Function.update_of_ne (by omega)]
      · rw [if_neg (by omega), if_pos (by omega), Function.update_self]
      · rw [Function.update_of_ne (by omega)]
        simp only [show i + 1 ≤ k ∧ k < i + 1 + n ↔ i ≤ k ∧ k < i + (n + 1) by omega]
    rw [linkFrom, setNext, write_of_lt (by omega), Option.bind_eq_bind, Option.bind_some,
      ih (by push_cast at h ⊢; omega), hrest]

-- ---------------------------------------------------------------------------
-- copyMarkers
-- ---------------------------------------------------------------------------

theorem toInt_length (h : mv.length < 2 ^ 31) :
    (BitVec.ofNat 32 mv.length).toInt = mv.length := by
  rw [BitVec.toInt_eq_toNat_cond, BitVec.toNat_ofNat]
  omega

/-- The markers of the vector, each with the index of the one behind it, before
the entries of `arr`. -/
def chained (mv : List (Marker K)) (arr : Nat → Marker K) (k : Nat) : Marker K :=
  match mv[k]? with
  | some m => { m with next := if k + 1 < mv.length then some (k + 1) else none }
  | none => arr k

theorem update_relink_overwrite (hne : mv ≠ []) (arr : Nat → Marker K) :
    let copied := overwrite arr 0 mv
    let linked := relink copied 0 (mv.length - 1)
    Function.update linked (mv.length - 1) { linked (mv.length - 1) with next := none } =
      chained mv arr := by
  intro copied linked
  funext k
  rw [chained]
  cases hk : mv[k]? with
  | none =>
    have hle : mv.length ≤ k := List.getElem?_eq_none_iff.mp hk
    have hpos : 0 < mv.length := List.length_pos_iff.mpr hne
    have hlinked : linked k = copied k := if_neg (by omega)
    rw [Function.update_of_ne (by omega), hlinked]
    simp [copied, overwrite, hk]
  | some m =>
    obtain ⟨hlt, -⟩ := List.getElem?_eq_some_iff.mp hk
    have hcopied : copied k = m := by simp [copied, overwrite, hk]
    by_cases hlast : k + 1 < mv.length
    · have hlinked : linked k = { copied k with next := some (k + 1) } := if_pos (by omega)
      rw [Function.update_of_ne (by omega), hlinked, hcopied]
      simp only [if_pos hlast]
    · obtain rfl : k = mv.length - 1 := by omega
      have hlinked : linked (mv.length - 1) = copied (mv.length - 1) := if_neg (by omega)
      rw [Function.update_self, hlinked, hcopied]
      simp only [if_neg hlast]

variable [Field K]

def reset : Pattern K where
  enabled := false
  markers := fun _ => .reset
  num_markers := 0
  marker_mean := .zero
  pattern := 0
  height := 0
  robot_id := 0

theorem num_markers_allocate (p : Pattern K) (num : Int) : (p.allocate num).num_markers = num := by
  rw [allocate]
  split
  · rfl
  · rename_i h
    exact not_not.mp h

theorem copyMarkers_eq (p : Pattern K) (hne : mv ≠ []) (hlt : mv.length < 2 ^ 31) :
    p.copyMarkers mv = some { p.allocate mv.length with
      markers := chained mv (p.allocate mv.length).markers } := by
  have hpos : 0 < mv.length := List.length_pos_iff.mpr hne
  have hbound : (BitVec.ofNat 64 mv.length - 1).toNat = mv.length - 1 := by
    have hone : (1 : BitVec 64).toNat = 1 := rfl
    rw [BitVec.toNat_sub, BitVec.toNat_ofNat, hone]
    omega
  have hnum := p.num_markers_allocate mv.length
  rw [copyMarkers, toInt_length hlt, hbound]
  generalize p.allocate mv.length = q at hnum ⊢
  dsimp only
  rw [copyFrom_eq (by omega), Option.bind_eq_bind, Option.bind_some,
    linkFrom_eq (by simp only [hnum]; omega), Option.bind_some, if_pos hpos, setNext,
    write_of_lt (by simp only [hnum]; omega)]
  simp only [update_relink_overwrite hne]

/-- The empty vector sets the link of a marker that is not allocated: the length
less one is the largest number of 64 bits. -/
theorem copyMarkers_nil (p : Pattern K) : p.copyMarkers [] = none := by
  have hnum := p.num_markers_allocate 0
  have hzero : (BitVec.ofNat 32 0).toInt = 0 := rfl
  have hbound : (BitVec.ofNat 64 0 - 1).toNat = 2 ^ 64 - 2 + 1 := rfl
  rw [copyMarkers, List.length_nil, hzero, hbound]
  generalize p.allocate 0 = q at hnum ⊢
  have hlink : q.linkFrom 0 (2 ^ 64 - 2 + 1) = none := by
    rw [linkFrom, setNext, write_of_le (Int.le_of_eq hnum)]
    rfl
  rw [copyFrom, Option.bind_eq_bind, Option.bind_some, hlink]
  rfl

theorem copyMarkers_of_long (p : Pattern K) (hlong : 2 ^ 31 ≤ mv.length) :
    p.copyMarkers mv = none := by
  rw [copyMarkers, Option.bind_eq_bind, Option.bind_eq_none_iff]
  intro q hcopy
  have hlt := lt_of_copyFrom hcopy (show 2 ^ 31 - 1 < mv.length by omega)
  have hmax := BitVec.toInt_lt (x := BitVec.ofNat 32 mv.length)
  rw [num_markers_allocate] at hlt
  omega

theorem copyMarkers_eq_some_iff :
    p.copyMarkers mv = some p' ↔ (1 ≤ mv.length ∧ mv.length < 2 ^ 31) ∧
      { p.allocate mv.length with markers := chained mv (p.allocate mv.length).markers } = p' := by
  constructor
  · intro h
    have hne : mv ≠ [] := by
      rintro rfl
      rw [copyMarkers_nil] at h
      cases h
    have hlt : mv.length < 2 ^ 31 := by
      by_contra hlong
      rw [copyMarkers_of_long p (Nat.not_lt.mp hlong)] at h
      cases h
    rw [copyMarkers_eq p hne hlt] at h
    exact ⟨⟨List.length_pos_iff.mpr hne, hlt⟩, Option.some.inj h⟩
  · rintro ⟨⟨hpos, hlt⟩, rfl⟩
    exact copyMarkers_eq p (List.length_pos_iff.mp hpos) hlt

-- ---------------------------------------------------------------------------
-- The chain
-- ---------------------------------------------------------------------------

def first (p : Pattern K) : Option Nat := if 0 < p.num_markers then some 0 else none

/-- What is said of the pattern afterwards. The entries behind the vector are
those of the allocation. -/
structure Chained (p : Pattern K) (mv : List (Marker K)) (p' : Pattern K) : Prop where
  num_markers : p'.num_markers = mv.length
  copied : ∀ k m, mv[k]? = some m → ∃ next, p'.markers k = { m with next }
  behind : ∀ k, mv.length ≤ k → p'.markers k = (p.allocate mv.length).markers k
  chain : Chain (fun k => (p'.markers k).next) p'.first (List.range mv.length)

def BuildsChain (p : Pattern K) (mv : List (Marker K)) : Prop :=
  ∃ p', p.copyMarkers mv = some p' ∧ p.Chained mv p'

omit [Field K] in
theorem chain_chained {arr : Nat → Marker K} (hnum : p.num_markers = mv.length)
    (hmarkers : p.markers = chained mv arr) :
    Chain (fun k => (p.markers k).next) p.first (List.range mv.length) := by
  rw [first, hnum, hmarkers, List.range_eq_range']
  simp only [Int.natCast_pos]
  refine Linked.chain_range' fun k _ hk => ?_
  rw [Nat.zero_add] at hk ⊢
  rw [chained, List.getElem?_eq_getElem hk]

/-- The chain is built exactly for vectors that have markers, and no more than
an `int` can count. -/
theorem buildsChain_iff (p : Pattern K) (mv : List (Marker K)) :
    p.BuildsChain mv ↔ 1 ≤ mv.length ∧ mv.length < 2 ^ 31 := by
  constructor
  · rintro ⟨p', hcopy, -⟩
    exact (copyMarkers_eq_some_iff.mp hcopy).1
  · intro hlength
    refine ⟨_, copyMarkers_eq_some_iff.mpr ⟨hlength, rfl⟩, ?_⟩
    have hnum := p.num_markers_allocate mv.length
    exact
      { num_markers := hnum
        copied := fun k m hm => ⟨_, by simp only [chained, hm]; rfl⟩
        behind := fun k hk => by simp only [chained, List.getElem?_eq_none hk]
        chain := chain_chained hnum rfl }

theorem not_buildsChain_nil : ¬(reset : Pattern Rat).BuildsChain [] := by
  rintro ⟨p', hcopy, -⟩
  rw [copyMarkers_nil] at hcopy
  cases hcopy

-- ---------------------------------------------------------------------------
-- Loaded patterns
-- ---------------------------------------------------------------------------

/-- What loading keeps of every pattern: the markers are linked in order, and the
code is computed from their colours. -/
structure Intact (p : Pattern K) : Prop where
  coded : p.Coded
  chain : ∀ n : Nat, p.num_markers = n →
    Chain (fun k => (p.markers k).next) p.first (List.range n)

theorem intact_reset : (reset : Pattern K).Intact where
  coded n hn := by
    obtain rfl : n = 0 := (Int.natCast_inj.mp hn).symm
    rfl
  chain n hn := by
    obtain rfl : n = 0 := (Int.natCast_inj.mp hn).symm
    rfl

omit [Field K] in
theorem foldl_eq_colorCode (mv : List (Marker K)) (arr : Nat → Marker K) :
    mv.foldl (fun (pattern : PatternCode) m => (pattern <<< 8) ||| m.id.setWidth 64) 0 =
      colorCode mv.length fun k => (chained mv arr k).id := by
  have hids : (List.range mv.length).map (fun k => (chained mv arr k).id) = mv.map Marker.id := by
    refine List.ext_getElem (by simp) fun k hk hk' => ?_
    rw [List.length_map] at hk'
    simp [chained, hk']
  calc mv.foldl (fun (pattern : PatternCode) m => (pattern <<< 8) ||| m.id.setWidth 64) 0
    _ = (mv.map Marker.id).foldl
        (fun (pattern : PatternCode) id => (pattern <<< 8) ||| id.setWidth 64) 0 := by
      rw [List.foldl_map]
    _ = colorCode mv.length fun k => (chained mv arr k).id := by
      rw [← hids]
      exact List.foldl_map

omit [Field K] in
theorem intact_of_chained {arr : Nat → Marker K} (hnum : p.num_markers = mv.length)
    (hmarkers : p.markers = chained mv arr)
    (hcode : p.pattern =
      mv.foldl (fun (pattern : PatternCode) m => (pattern <<< 8) ||| m.id.setWidth 64) 0) :
    p.Intact where
  coded n hn := by
    obtain rfl : mv.length = n := Int.natCast_inj.mp (hnum.symm.trans hn)
    rw [hcode, hmarkers, foldl_eq_colorCode mv arr]
  chain n hn := by
    obtain rfl : mv.length = n := Int.natCast_inj.mp (hnum.symm.trans hn)
    exact chain_chained hnum hmarkers

end Pattern

namespace MultiPatternModel

variable {K : Type*} [Field K] [LinearOrder K] {model model' : MultiPatternModel K}
  {math : Math K} {channels : List String} {colors : ColorRegionList} {regs : Nat → Region}
  {n idx : Nat} {default_object_height : K}

theorem loadSinglePatternImage_of_no_markers
    (hteam : getChannelID channels "Blue" ≠ -1) {c : Nat}
    (hcenter : (colors.colorRegions (getChannelID channels "Blue").toNat).first = some c)
    {s : Collected K}
    (hcollect : collectMarkers math (imageLoc (regs c)) regs colors n (markerColorIds channels)
      ⟨[], model.used⟩ = some s)
    (hnone : s.markers = []) :
    model.loadSinglePatternImage math n (some channels) colors regs idx default_object_height =
      none := by
  simp only [loadSinglePatternImage, if_neg hteam, hcenter, hcollect, hnone,
    List.insertionSort_nil, List.mapIdx_nil, Pattern.copyMarkers_nil, Option.bind_eq_bind,
    Option.bind_some, Option.bind_none, Option.bind_fun_none]

/-- What a call does to the patterns: nothing, or it stores one whose markers are
chained and whose code is that of their colours. -/
theorem patterns_loadSinglePatternImage {channels : Option (List String)} {loaded : Bool}
    (h : model.loadSinglePatternImage math n channels colors regs idx default_object_height =
      some (loaded, model')) :
    model'.patterns = model.patterns ∨
      ∃ p, p.Intact ∧ model'.patterns = model.patterns.set idx p := by
  unfold loadSinglePatternImage at h
  split at h
  · cases h
    exact .inl rfl
  dsimp only at h
  split at h
  · cases h
    exact .inl rfl
  split at h
  · cases h
    exact .inl rfl
  simp only [Option.bind_eq_bind, Option.bind_eq_some_iff] at h
  obtain ⟨s, -, p, -, q, hcopy, h⟩ := h
  generalize List.mapIdx _ _ = markers at hcopy h
  obtain ⟨-, rfl⟩ := Pattern.copyMarkers_eq_some_iff.mp hcopy
  obtain ⟨-, rfl⟩ := Prod.mk.inj (Option.some.inj h)
  refine .inr ⟨_, ?_, rfl⟩
  exact Pattern.intact_of_chained (Pattern.num_markers_allocate _ markers.length) rfl rfl

/-- The loop of `loadMultiPatternImage` over the cells of the image, from new
patterns on: the model, and what each call returned. -/
def loadCells (math : Math K) (n : Nat) (channels : Option (List String))
    (default_object_height : K) (cells : List (ColorRegionList × (Nat → Region))) :
    Option (MultiPatternModel K × List Bool) :=
  Machine.run (fun model (cell : (ColorRegionList × (Nat → Region)) × Nat) =>
      (model.loadSinglePatternImage math n channels cell.1.1 cell.1.2 cell.2
        default_object_height).map Prod.swap)
    ⟨List.replicate cells.length .reset, .clear 32⟩ cells.zipIdx

/-- All patterns of a loaded model are linked, and coded by their colours. -/
theorem intact_loadCells {channels : Option (List String)}
    {cells : List (ColorRegionList × (Nat → Region))} {loaded : List Bool}
    (h : loadCells math n channels default_object_height cells = some (model, loaded)) :
    ∀ p ∈ model.patterns, p.Intact := by
  refine Machine.run_invariant (I := fun model _ => ∀ p ∈ model.patterns, p.Intact) ?_ ?_ h
  · intro p hp
    rw [List.eq_of_mem_replicate hp]
    exact Pattern.intact_reset
  · intro model outs cell model' out hintact hstep p hp
    obtain ⟨⟨_, _⟩, hload, heq⟩ := Option.map_eq_some_iff.mp hstep
    cases heq
    rcases patterns_loadSinglePatternImage hload with heq | ⟨q, hq, heq⟩
    · exact hintact p (heq ▸ hp)
    · rw [heq] at hp
      rcases List.mem_or_eq_of_mem_set hp with hp | rfl
      · exact hintact p hp
      · exact hq

end MultiPatternModel

end LARCmaCS.CMPattern
