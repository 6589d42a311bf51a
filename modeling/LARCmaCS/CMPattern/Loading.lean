import LARCmaCS.CMVision.ColorLists
import LARCmaCS.CMPattern.Pattern
import Mathlib.Algebra.Order.BigOperators.Group.List
import Mathlib.Algebra.Order.Group.Nat

/-!
# Loading a pattern

`loadSinglePatternImage` of `cmpattern_pattern.cpp`, from the colour lists that
the image processor hands over. The loop that collects the markers moves on
only from a region that is large enough, so it ends exactly if all regions of
the marker colours are (`collectsExactly_iff`).
-/

namespace LARCmaCS.CMVision

def Region.width (reg : Region) : Int := reg.x2 - reg.x1 + 1
def Region.height (reg : Region) : Int := reg.y2 - reg.y1 + 1

end LARCmaCS.CMVision

namespace LARCmaCS.CMPattern

open CMVision (Raw8 Region ColorRegionList)
open Linked (Chain)

-- ---------------------------------------------------------------------------
-- The colours of the markers
-- ---------------------------------------------------------------------------

def getChannelID (channels : List String) (label : String) : Int :=
  match channels.findIdx? (· == label) with
  | some i => i
  | none => -1

def markerColorLabels : List String := ["Pink", "White", "Cyan", "Green"]

def markerColorIds (channels : List String) : List Int :=
  (markerColorLabels.map (getChannelID channels)).filter (· ≠ -1)

-- ---------------------------------------------------------------------------
-- The markers
-- ---------------------------------------------------------------------------

variable {K : Type*} [Field K]

def anglePos (math : Math K) (angle : K) : K := math.fmod (angle + math.M_2PI) math.M_2PI

def angleDiff (math : Math K) (a b : K) : K :=
  let d := a - b
  d - math.M_2PI * math.rint (d / math.M_2PI)

structure Collected (K : Type*) where
  markers : List (Marker K)
  used : ColorsUsed

def imageLoc (reg : Region) : Vector2 K := ⟨-reg.cen_y, -reg.cen_x⟩

def markerOf (math : Math K) (cen : Vector2 K) (id : Int) (reg : Region) : Marker K :=
  let loc := (imageLoc reg).sub cen
  { Marker.reset with
    loc
    id := BitVec.ofInt 8 id
    area := reg.area
    angle := anglePos math (loc.angle math)
    dist := loc.length math }

/-- The loop over the regions of a colour from `reg` on, at most `n` rounds. -/
def collectColor (math : Math K) (cen : Vector2 K) (regs : Nat → Region) (next : Nat → Option Nat)
    (id : Int) : (n : Nat) → (reg : Option Nat) → Collected K → Option (Collected K)
  | _, none, s => some s
  | 0, some _, _ => none
  | n + 1, some r, s =>
    if (regs r).width > 3 ∧ (regs r).height > 3 then
      let m := markerOf math cen id (regs r)
      collectColor math cen regs next id n (next r) ⟨s.markers ++ [m], s.used.use m.id⟩
    else collectColor math cen regs next id n (some r) s

def collectMarkers (math : Math K) (cen : Vector2 K) (regs : Nat → Region)
    (colors : ColorRegionList) (n : Nat) (ids : List Int) (s : Collected K) :
    Option (Collected K) :=
  ids.foldlM (fun s id =>
    collectColor math cen regs colors.next id n (colors.colorRegions id.toNat).first s) s

-- ---------------------------------------------------------------------------
-- copyMarkers
-- ---------------------------------------------------------------------------

namespace Pattern

def setEnabled (p : Pattern K) (val : Bool) : Pattern K := { p with enabled := val }

def allocate (p : Pattern K) (num : Int) : Pattern K :=
  if p.num_markers ≠ num then { p with markers := fun _ => .reset, num_markers := num } else p

/-- `markers[i] = m`, without a result outside what is allocated. -/
def write (p : Pattern K) (i : Nat) (m : Marker K) : Option (Pattern K) :=
  if i < p.num_markers then some { p with markers := Function.update p.markers i m } else none

def setNext (p : Pattern K) (i : Nat) (next : Option Nat) : Option (Pattern K) :=
  p.write i { p.markers i with next }

def copyFrom (p : Pattern K) : (i : Nat) → List (Marker K) → Option (Pattern K)
  | _, [] => some p
  | i, m :: mv => do
    let p ← p.write i m
    copyFrom p (i + 1) mv

def linkFrom (p : Pattern K) (i : Nat) : (n : Nat) → Option (Pattern K)
  | 0 => some p
  | n + 1 => do
    let p ← p.setNext i (some (i + 1))
    linkFrom p (i + 1) n

/-- The bound of the second loop is computed in 64 bits, the number to allocate
in 32. The loops leave what is allocated before their index wraps around. -/
def copyMarkers (p : Pattern K) (mv : List (Marker K)) : Option (Pattern K) := do
  let p := p.allocate (BitVec.ofNat 32 mv.length).toInt
  let p ← p.copyFrom 0 mv
  let p ← p.linkFrom 0 (BitVec.ofNat 64 mv.length - 1).toNat
  if mv.length > 0 then p.setNext (mv.length - 1) none else some p

end Pattern

-- ---------------------------------------------------------------------------
-- loadSinglePatternImage
-- ---------------------------------------------------------------------------

def objectHeight (colors : ColorRegionList) (regs : Nat → Region) (color_height_id : Int)
    (default_object_height : K) : K :=
  if color_height_id ≠ -1 then
    match (colors.colorRegions color_height_id.toNat).first with
    | some r =>
      if (regs r).width < 1 ∨ (regs r).width > 6 then default_object_height
      else if colors.next r ≠ none then default_object_height
      else ((regs r).height : K)
    | none => default_object_height
  else default_object_height

def linkMeasures (math : Math K) (markers : List (Marker K)) (i : Nat) (m : Marker K) : Marker K :=
  match markers[(i + 1) % markers.length]? with
  | some m' =>
    { m with
      next_dist := m.loc.dist math m'.loc
      next_angle_dist := anglePos math (angleDiff math m.angle m'.angle) }
  | none => m

/-- The model afterwards and whether the pattern was loaded, from the labels of
the lookup table's channels and the lists of the image's regions, whose loops
are bounded by `n`. Of markers at the same angle the sort leaves the order open. -/
def MultiPatternModel.loadSinglePatternImage [LinearOrder K] (model : MultiPatternModel K)
    (math : Math K) (n : Nat) (channels : Option (List String)) (colors : ColorRegionList)
    (regs : Nat → Region) (idx : Nat) (default_object_height : K) : Option (Bool × MultiPatternModel K) :=
  match channels with
  | none => some (false, model)
  | some channels =>
    let color_team_id := getChannelID channels "Blue"
    if color_team_id = -1 then some (false, model)
    else
      let color_height_id := getChannelID channels "Yellow"
      match (colors.colorRegions color_team_id.toNat).first with
      | none => some (false, model)
      | some r => do
        let cen := imageLoc (regs r)
        let height := objectHeight colors regs color_height_id default_object_height
        let s ← collectMarkers math cen regs colors n (markerColorIds channels) ⟨[], model.used⟩
        let sorted := s.markers.insertionSort fun a b => a.angle ≤ b.angle
        let markers := sorted.mapIdx (linkMeasures math sorted)
        let loc_sum := markers.foldl (fun sum m => sum.add m.loc) Vector2.zero
        let p ← model.patterns[idx]?
        let p ← (p.setEnabled true).copyMarkers markers
        let p :=
          { p with
            marker_mean := loc_sum.div (max markers.length 1 : Nat)
            pattern := markers.foldl (fun pattern m => (pattern <<< 8) ||| m.id.setWidth 64) 0
            height
            robot_id := idx }
        some (true, ⟨model.patterns.set idx p, s.used⟩)

-- ---------------------------------------------------------------------------
-- The loop over the regions
-- ---------------------------------------------------------------------------

def Large (reg : Region) : Prop := reg.width > 3 ∧ reg.height > 3

instance (reg : Region) : Decidable (Large reg) := inferInstanceAs (Decidable (_ ∧ _))

section Loop

variable {math : Math K} {cen : Vector2 K} {regs : Nat → Region} {next : Nat → Option Nat}
  {id : Int} {reg : Option Nat} {xs : List Nat}

/-- The cursor never leaves a region that is not large. -/
theorem collectColor_stuck {r : Nat} (hr : ¬Large (regs r)) (n : Nat) (s : Collected K) :
    collectColor math cen regs next id n (some r) s = none := by
  induction n with
  | zero => rfl
  | succ n ih =>
    rw [collectColor]
    exact (if_neg hr).trans ih

theorem collectColor_of_large (math : Math K) (cen : Vector2 K) (id : Int)
    (hreg : Chain next reg xs) (hlarge : ∀ r ∈ xs, Large (regs r)) {n : Nat} (hn : xs.length ≤ n)
    (s : Collected K) :
    ∃ used, collectColor math cen regs next id n reg s =
      some ⟨s.markers ++ xs.map fun r => markerOf math cen id (regs r), used⟩ := by
  induction xs generalizing reg n s with
  | nil =>
    obtain rfl : reg = none := hreg
    exact ⟨s.used, by rw [collectColor, List.map_nil, List.append_nil]⟩
  | cons r xs ih =>
    obtain ⟨rfl, hrest⟩ := hreg
    obtain ⟨n, rfl⟩ : ∃ k, n = k + 1 := ⟨n - 1, by rw [List.length_cons] at hn; omega⟩
    obtain ⟨used, hloop⟩ := ih hrest (fun q hq => hlarge q (List.mem_cons_of_mem _ hq))
      (Nat.le_of_succ_le_succ hn)
      ⟨s.markers ++ [markerOf math cen id (regs r)], s.used.use (markerOf math cen id (regs r)).id⟩
    refine ⟨used, ?_⟩
    rw [collectColor, List.map_cons, List.append_cons]
    exact (if_pos (hlarge r List.mem_cons_self)).trans hloop

theorem collectColor_of_small (hreg : Chain next reg xs) {r : Nat} (hr : r ∈ xs)
    (hsmall : ¬Large (regs r)) (n : Nat) (s : Collected K) :
    collectColor math cen regs next id n reg s = none := by
  induction xs generalizing reg n s with
  | nil => cases hr
  | cons q xs ih =>
    obtain ⟨rfl, hrest⟩ := hreg
    by_cases hq : Large (regs q)
    · cases n with
      | zero => rfl
      | succ n =>
        have hr : r ∈ xs := by
          rcases List.mem_cons.mp hr with rfl | hr
          · exact absurd hq hsmall
          · exact hr
        rw [collectColor]
        exact (if_pos hq).trans (ih hrest hr n _)
    · exact collectColor_stuck hq n s

end Loop

-- ---------------------------------------------------------------------------
-- The loop over the colours
-- ---------------------------------------------------------------------------

/-- The regions on the lists of the given colours that are large, with their colours. -/
def largeRegions (regs : Nat → Region) (lists : Int → List Nat) (ids : List Int) :
    List (Int × Nat) :=
  ids.flatMap fun id => ((lists id).filter fun r => Large (regs r)).map (id, ·)

section Loop

variable {math : Math K} {cen : Vector2 K} {regs : Nat → Region} {colors : ColorRegionList}
  {lists : Int → List Nat} {ids : List Int}

theorem collectMarkers_of_large (math : Math K) (cen : Vector2 K)
    (hlists : ∀ id ∈ ids, Chain colors.next (colors.colorRegions id.toNat).first (lists id))
    (hlarge : ∀ id ∈ ids, ∀ r ∈ lists id, Large (regs r)) {n : Nat}
    (hn : ∀ id ∈ ids, (lists id).length ≤ n) (s : Collected K) :
    ∃ used, collectMarkers math cen regs colors n ids s =
      some ⟨s.markers ++ (largeRegions regs lists ids).map fun c =>
        markerOf math cen c.1 (regs c.2), used⟩ := by
  induction ids generalizing s with
  | nil => exact ⟨s.used, by simp [collectMarkers, largeRegions]⟩
  | cons id ids ih =>
    obtain ⟨used, hcolor⟩ := collectColor_of_large math cen id (hlists id List.mem_cons_self)
      (hlarge id List.mem_cons_self) (hn id List.mem_cons_self) s
    obtain ⟨used', hrest⟩ := ih (fun i hi => hlists i (List.mem_cons_of_mem _ hi))
      (fun i hi => hlarge i (List.mem_cons_of_mem _ hi))
      (fun i hi => hn i (List.mem_cons_of_mem _ hi))
      ⟨s.markers ++ (lists id).map fun r => markerOf math cen id (regs r), used⟩
    have hall : (lists id).filter (fun r => Large (regs r)) = lists id :=
      List.filter_eq_self.mpr fun r hr => decide_eq_true (hlarge id List.mem_cons_self r hr)
    refine ⟨used', ?_⟩
    rw [collectMarkers] at hrest ⊢
    rw [List.foldlM_cons, hcolor, Option.bind_eq_bind, Option.bind_some, hrest]
    simp [largeRegions, hall]

theorem collectMarkers_of_small
    (hlists : ∀ id ∈ ids, Chain colors.next (colors.colorRegions id.toNat).first (lists id))
    {id : Int} (hid : id ∈ ids) {r : Nat} (hr : r ∈ lists id) (hsmall : ¬Large (regs r)) (n : Nat)
    (s : Collected K) : collectMarkers math cen regs colors n ids s = none := by
  induction ids generalizing s with
  | nil => cases hid
  | cons i ids ih =>
    rw [collectMarkers, List.foldlM_cons, Option.bind_eq_bind, Option.bind_eq_none_iff]
    intro t ht
    rcases List.mem_cons.mp hid with rfl | hid
    · rw [collectColor_of_small (hlists id List.mem_cons_self) hr hsmall] at ht
      cases ht
    · exact ih (fun j hj => hlists j (List.mem_cons_of_mem _ hj)) hid t

end Loop

theorem getElem?_getChannelID {channels : List String} {label : String}
    (h : getChannelID channels label ≠ -1) :
    channels[(getChannelID channels label).toNat]? = some label := by
  rw [getChannelID] at h ⊢
  cases hfind : channels.findIdx? (· == label) with
  | none => simp [hfind] at h
  | some i =>
    obtain ⟨hi, heq, -⟩ := List.findIdx?_eq_some_iff_getElem.mp hfind
    simpa [List.getElem?_eq_getElem hi] using heq

theorem nodup_markerColorIds (channels : List String) : (markerColorIds channels).Nodup := by
  rw [markerColorIds, List.filter_map]
  refine List.Nodup.map_on (fun a ha b hb heq => ?_) (List.Nodup.filter _ (by decide))
  have ha := getElem?_getChannelID (of_decide_eq_true (List.mem_filter.mp ha).2)
  have hb := getElem?_getChannelID (of_decide_eq_true (List.mem_filter.mp hb).2)
  rw [heq, hb] at ha
  exact (Option.some.inj ha).symm

theorem nodup_largeRegions {regs : Nat → Region} {lists : Int → List Nat} {ids : List Int}
    (hids : ids.Nodup) (hlists : ∀ id ∈ ids, (lists id).Nodup) :
    (largeRegions regs lists ids).Nodup := by
  refine List.nodup_flatMap.mpr ⟨fun id hid => ?_, hids.imp fun {i j} hij => ?_⟩
  · exact ((hlists id hid).filter _).map fun _ _ h => (Prod.mk.inj h).2
  · refine List.disjoint_left.mpr fun c hi hj => ?_
    obtain ⟨_, -, rfl⟩ := List.mem_map.mp hi
    obtain ⟨_, -, heq⟩ := List.mem_map.mp hj
    exact hij (Prod.mk.inj heq).1.symm

/-- With a small region on a marker colour's list, the function never returns. -/
theorem MultiPatternModel.loadSinglePatternImage_of_small [LinearOrder K]
    (model : MultiPatternModel K) (math : Math K) {channels : List String}
    {colors : ColorRegionList} {regs : Nat → Region} {lists : Int → List Nat}
    (hlists : ∀ id ∈ markerColorIds channels,
      Chain colors.next (colors.colorRegions id.toNat).first (lists id))
    (hteam : getChannelID channels "Blue" ≠ -1) {c : Nat}
    (hcenter : (colors.colorRegions (getChannelID channels "Blue").toNat).first = some c)
    {id : Int} (hid : id ∈ markerColorIds channels) {r : Nat} (hr : r ∈ lists id)
    (hsmall : ¬Large (regs r)) (n idx : Nat) (default_object_height : K) :
    model.loadSinglePatternImage math n (some channels) colors regs idx default_object_height =
      none := by
  simp only [loadSinglePatternImage, if_neg hteam, hcenter,
    collectMarkers_of_small hlists hid hr hsmall, Option.bind_eq_bind, Option.bind_none]

/-- The loop ends, and its markers are those of the large regions of the marker
colours, each taken once. -/
def CollectsExactly (math : Math K) (cen : Vector2 K) (regs : Nat → Region)
    (colors : ColorRegionList) (lists : Int → List Nat) (channels : List String)
    (used : ColorsUsed) : Prop :=
  (∃ n s, collectMarkers math cen regs colors n (markerColorIds channels) ⟨[], used⟩ = some s ∧
    s.markers = (largeRegions regs lists (markerColorIds channels)).map fun c =>
      markerOf math cen c.1 (regs c.2)) ∧
  (largeRegions regs lists (markerColorIds channels)).Nodup

/-- The loop collects the markers exactly if no region on the lists is small. -/
theorem collectsExactly_iff (math : Math K) (cen : Vector2 K) (regs : Nat → Region)
    (colors : ColorRegionList) (lists : Int → List Nat) (channels : List String)
    (used : ColorsUsed)
    (hlists : ∀ id ∈ markerColorIds channels,
      Chain colors.next (colors.colorRegions id.toNat).first (lists id)) :
    CollectsExactly math cen regs colors lists channels used ↔
      ∀ id ∈ markerColorIds channels, ∀ r ∈ lists id, Large (regs r) := by
  constructor
  · rintro ⟨⟨n, s, hloop, -⟩, -⟩ id hid r hr
    by_contra hsmall
    rw [collectMarkers_of_small hlists hid hr hsmall] at hloop
    cases hloop
  · intro hlarge
    have hbound (id : Int) (hid : id ∈ markerColorIds channels) :
        (lists id).length ≤ ((markerColorIds channels).map fun id => (lists id).length).sum :=
      List.le_sum_of_mem (List.mem_map_of_mem hid)
    obtain ⟨used', hloop⟩ := collectMarkers_of_large math cen hlists hlarge hbound ⟨[], used⟩
    exact ⟨⟨_, _, hloop, List.nil_append _⟩,
      nodup_largeRegions (nodup_markerColorIds channels) fun id hid => (hlists id hid).nodup⟩

def onePinkRegion : ColorRegionList where
  numColorRegions := 2
  colorRegions c := if c = 1 then ⟨some 0, 1⟩ else .reset
  next _ := none

def cornerRegions (width height : Nat) : Nat → Region := fun _ =>
  ⟨1, 0, 0, width - 1, height - 1, (width - 1) / 2, (height - 1) / 2, width * height, 0, 0⟩

def onePinkList (id : Int) : List Nat := if id = 1 then [0] else []

theorem chain_onePinkList :
    ∀ id ∈ markerColorIds ["Blue", "Pink"],
      Chain onePinkRegion.next (onePinkRegion.colorRegions id.toNat).first (onePinkList id) := by
  intro id hid
  obtain rfl : id = 1 := by simpa [show markerColorIds ["Blue", "Pink"] = [1] by decide] using hid
  exact ⟨rfl, rfl⟩

def pinkAndWhite : ColorRegionList where
  numColorRegions := 3
  colorRegions c := if c = 1 then ⟨some 0, 2⟩ else if c = 2 then ⟨some 2, 1⟩ else .reset
  next r := if r = 0 then some 1 else none

def pinkAndWhiteLists (id : Int) : List Nat := if id = 1 then [0, 1] else if id = 2 then [2] else []

theorem collectsExactly_iff_pink_white :
    CollectsExactly mathAtZero (imageLoc (cornerRegions 4 4 0))
      (fun r => cornerRegions (4 + r) (6 - r) r) pinkAndWhite pinkAndWhiteLists
      ["Blue", "Pink", "White"] (.clear 3) := by
  have hids : ∀ id ∈ markerColorIds ["Blue", "Pink", "White"], id = 1 ∨ id = 2 := by
    simp [show markerColorIds ["Blue", "Pink", "White"] = [1, 2] by decide]
  refine (collectsExactly_iff mathAtZero _ _ pinkAndWhite pinkAndWhiteLists _ _ fun id hid => ?_).mpr
    fun id hid r hr => ?_
  · obtain rfl | rfl := hids id hid
    · exact ⟨rfl, rfl, rfl⟩
    · exact ⟨rfl, rfl⟩
  · have hall : ∀ id ∈ [1, 2], ∀ r ∈ pinkAndWhiteLists id, Large (cornerRegions (4 + r) (6 - r) r) := by
      decide
    exact hall id (by simpa using hids id hid) r hr

/-- A region three pixels wide, whose area is above the least one that is listed. -/
theorem not_collectsExactly_narrow :
    ¬CollectsExactly mathAtZero (imageLoc (cornerRegions 4 4 0)) (cornerRegions 3 4)
      onePinkRegion onePinkList ["Blue", "Pink"] (.clear 2) := by
  rintro ⟨⟨n, s, hloop, -⟩, -⟩
  have hone : (1 : Int) ∈ markerColorIds ["Blue", "Pink"] := by decide
  have hzero : 0 ∈ onePinkList 1 := by decide
  have hsmall : ¬Large (cornerRegions 3 4 0) := by decide
  exact Option.some_ne_none s
    (hloop.symm.trans (collectMarkers_of_small chain_onePinkList hone hzero hsmall n _))

end LARCmaCS.CMPattern
