import Mathlib.Algebra.GroupWithZero.Nat
import Mathlib.Algebra.Order.Group.Int
import Mathlib.Algebra.Order.Field.Rat
import Mathlib.Data.List.Chain
import Mathlib.Data.List.Nodup
import Mathlib.Order.Bounds.Basic
import Mathlib.Tactic.Linarith
import Mathlib.Tactic.Ring
import LARCmaCS.CMVision.Extract

/-!
# What a region says about its runs

`Summary` is what a region has gathered from a list of runs: it holds of a new
region and is kept by every run that joins (`Summary.addRun`). Closing the
region turns it into the statistics of the runs' pixels
(`Summary.statistics`).
-/

namespace LARCmaCS.CMVision

-- ---------------------------------------------------------------------------
-- Pixels of runs
-- ---------------------------------------------------------------------------

def Run.pixels (r : Run) : List (Nat × Nat) := (List.range' r.x r.width).map (·, r.y)

def pixels (runs : Nat → Run) (ms : List Nat) : List (Nat × Nat) :=
  ms.flatMap fun k => (runs k).pixels

theorem Run.mem_pixels {r : Run} {p : Nat × Nat} :
    p ∈ r.pixels ↔ (r.x ≤ p.1 ∧ p.1 < r.stop) ∧ p.2 = r.y := by
  obtain ⟨c, row⟩ := p
  simp only [pixels, List.mem_map, List.mem_range'_1, Prod.mk.injEq, stop]
  constructor
  · rintro ⟨c', hc, rfl, rfl⟩
    exact ⟨hc, rfl⟩
  · rintro ⟨hc, rfl⟩
    exact ⟨c, hc, rfl, rfl⟩

theorem mem_pixels {runs : Nat → Run} {ms : List Nat} {p : Nat × Nat} :
    p ∈ pixels runs ms ↔ ∃ k ∈ ms, ((runs k).x ≤ p.1 ∧ p.1 < (runs k).stop) ∧ p.2 = (runs k).y := by
  simp only [pixels, List.mem_flatMap, Run.mem_pixels]

theorem length_pixels (runs : Nat → Run) (ms : List Nat) :
    (pixels runs ms).length = (ms.map fun k => (runs k).width).sum := by
  simp [pixels, List.length_flatMap, Run.pixels]

theorem rangeSum_succ (x w : Nat) : rangeSum x (w + 1) = rangeSum x w + (x + w) := by
  have hstep : (w + 1) * (2 * x + (w + 1) - 1) = w * (2 * x + w - 1) + 2 * (x + w) := by
    cases w with
    | zero => omega
    | succ w =>
      have h1 : 2 * x + (w + 1 + 1) - 1 = 2 * x + w + 1 := by omega
      have h2 : 2 * x + (w + 1) - 1 = 2 * x + w := by omega
      rw [h1, h2]
      ring
  rw [rangeSum, hstep, Nat.add_mul_div_left _ _ (by decide), rangeSum]

theorem sum_range' (x w : Nat) : (List.range' x w).sum = rangeSum x w := by
  induction w with
  | zero => simp [rangeSum]
  | succ w ih => rw [List.range'_1_concat, List.sum_append, ih, List.sum_singleton, rangeSum_succ]

theorem Run.sum_columns (r : Run) : (r.pixels.map Prod.fst).sum = rangeSum r.x r.width := by
  rw [pixels, List.map_map, ← sum_range']
  exact congrArg List.sum (List.map_id _)

theorem Run.sum_rows (r : Run) : (r.pixels.map Prod.snd).sum = r.y * r.width := by
  rw [pixels, List.map_map]
  have hconst : (List.range' r.x r.width).map (Prod.snd ∘ fun c => (c, r.y)) =
      List.replicate r.width r.y := by
    exact List.map_const'.trans (by rw [List.length_range'])
  rw [hconst, List.sum_replicate_nat, Nat.mul_comm]

theorem sum_pixels (runs : Nat → Run) (ms : List Nat) :
    ((pixels runs ms).map Prod.fst).sum = (ms.map fun k => rangeSum (runs k).x (runs k).width).sum ∧
      ((pixels runs ms).map Prod.snd).sum = (ms.map fun k => (runs k).y * (runs k).width).sum := by
  induction ms with
  | nil => exact ⟨rfl, rfl⟩
  | cons k ms ih =>
    have hcons : pixels runs (k :: ms) = (runs k).pixels ++ pixels runs ms := rfl
    rw [hcons, List.map_append, List.map_append, List.sum_append, List.sum_append, ih.1, ih.2,
      Run.sum_columns, Run.sum_rows]
    exact ⟨rfl, rfl⟩

-- ---------------------------------------------------------------------------
-- What a region gathers
-- ---------------------------------------------------------------------------

/-- The region has gathered the runs `ms`, in this order; `x2` is still the
column behind its last one. -/
structure Summary (runs : Nat → Run) (ms : List Nat) (g : Region) : Prop where
  color : ∀ k ∈ ms, (runs k).color = g.color
  area : g.area = (ms.map fun k => (runs k).width).sum
  x1 : IsLeast {v : Int | ∃ k ∈ ms, v = (runs k).x} g.x1
  x2 : IsGreatest {v : Int | ∃ k ∈ ms, v = (runs k).stop} g.x2
  y1 : IsLeast {v : Int | ∃ k ∈ ms, v = (runs k).y} g.y1
  y2 : IsGreatest {v : Int | ∃ k ∈ ms, v = (runs k).y} g.y2
  cen_x : g.cen_x = ((ms.map fun k => rangeSum (runs k).x (runs k).width).sum : Nat)
  cen_y : g.cen_y = ((ms.map fun k => (runs k).y * (runs k).width).sum : Nat)
  first : ms.head? = some g.run_start
  last : ms.getLast? = some g.iterator_id

variable {runs : Nat → Run} {ms : List Nat} {g : Region} {i : Nat}

theorem setOf_concat (f : Nat → Int) :
    {v | ∃ k ∈ ms ++ [i], v = f k} = insert (f i) {v | ∃ k ∈ ms, v = f k} := by
  ext v
  simp only [List.mem_append, List.mem_singleton, Set.mem_insert_iff, Set.mem_ofPred_eq]
  constructor
  · rintro ⟨k, hk | rfl, hv⟩
    · exact .inr ⟨k, hk, hv⟩
    · exact .inl hv
  · rintro (hv | ⟨k, hk, hv⟩)
    · exact ⟨i, .inr rfl, hv⟩
    · exact ⟨k, .inl hk, hv⟩

theorem Summary.ofRun (runs : Nat → Run) (i : Nat) : Summary runs [i] (.ofRun i (runs i)) := by
  have hset (f : Nat → Int) : {v | ∃ k ∈ [i], v = f k} = {f i} := by
    ext v
    simp
  constructor
  · simp [Region.ofRun]
  · simp [Region.ofRun]
  · rw [hset]
    exact isLeast_singleton
  · rw [hset]
    exact isGreatest_singleton
  · rw [hset]
    exact isLeast_singleton
  · rw [hset]
    exact isGreatest_singleton
  · simp [Region.ofRun]
  · simp [Region.ofRun]
  · rfl
  · rfl

theorem Summary.addRun (h : Summary runs ms g) (hcolor : (runs i).color = g.color)
    (hrow : ∀ k ∈ ms, (runs k).y ≤ (runs i).y) : Summary runs (ms ++ [i]) (g.addRun i (runs i)) := by
  have hy1 : g.y1 ≤ (runs i).y := by
    obtain ⟨k, hk, hv⟩ := h.y1.1
    have := hrow k hk
    omega
  have hy2 : g.y2 ≤ (runs i).y := by
    obtain ⟨k, hk, hv⟩ := h.y2.1
    have := hrow k hk
    omega
  constructor
  · intro k hk
    rcases List.mem_append.mp hk with hk | hk
    · exact h.color k hk
    · rw [List.mem_singleton.mp hk]
      exact hcolor
  · simp [Region.addRun, h.area]
  · rw [setOf_concat]
    exact h.x1.insert _
  · rw [setOf_concat]
    exact h.x2.insert _
  · rw [setOf_concat]
    have hmin := h.y1.insert ((runs i).y : Int)
    rwa [min_eq_right hy1] at hmin
  · rw [setOf_concat]
    have hmax := h.y2.insert ((runs i).y : Int)
    rwa [max_eq_left hy2] at hmax
  · simp [Region.addRun, h.cen_x]
  · simp [Region.addRun, h.cen_y]
  · simp [Region.addRun, h.first]
  · simp [Region.addRun]

-- ---------------------------------------------------------------------------
-- The closed region
-- ---------------------------------------------------------------------------

/-- The box is the smallest, with both ends inside, that holds the pixels. -/
structure TightBox (ps : List (Nat × Nat)) (g : Region) : Prop where
  x1 : IsLeast {v : Int | ∃ p ∈ ps, v = p.1} g.x1
  x2 : IsGreatest {v : Int | ∃ p ∈ ps, v = p.1} g.x2
  y1 : IsLeast {v : Int | ∃ p ∈ ps, v = p.2} g.y1
  y2 : IsGreatest {v : Int | ∃ p ∈ ps, v = p.2} g.y2

/-- The region is what its runs make it. Runs that overlap would count their
common pixels twice. -/
structure Statistics (runs : Nat → Run) (ms : List Nat) (g : Region) : Prop where
  color : ∀ k ∈ ms, (runs k).color = g.color
  area : g.area = (pixels runs ms).length
  distinct : (ms.Pairwise fun i k => (runs i).pixels.Disjoint (runs k).pixels) →
    (pixels runs ms).Nodup
  box : TightBox (pixels runs ms) g
  cen_x : g.cen_x = (((pixels runs ms).map Prod.fst).sum : Nat) / (pixels runs ms).length
  cen_y : g.cen_y = (((pixels runs ms).map Prod.snd).sum : Nat) / (pixels runs ms).length
  iterator_id : g.iterator_id = 0

theorem Run.nodup_pixels (r : Run) : r.pixels.Nodup :=
  List.Nodup.map (fun _ _ h => congrArg Prod.fst h) (List.nodup_range' _)

theorem nodup_pixels (h : ms.Pairwise fun i k => (runs i).pixels.Disjoint (runs k).pixels) :
    (pixels runs ms).Nodup :=
  List.nodup_flatMap.mpr ⟨fun k _ => (runs k).nodup_pixels, h⟩

theorem Summary.tightBox (h : Summary runs ms g) (hpos : ∀ k ∈ ms, 0 < (runs k).width) :
    TightBox (pixels runs ms) g.close := by
  have hcorner {k : Nat} (hk : k ∈ ms) {c : Nat} (hc : (runs k).x ≤ c ∧ c < (runs k).stop) :
      (c, (runs k).y) ∈ pixels runs ms := mem_pixels.mpr ⟨k, hk, hc, rfl⟩
  have hstop {k : Nat} (hk : k ∈ ms) : (runs k).x < (runs k).stop := by
    have := hpos k hk
    simp only [Run.stop]
    omega
  constructor
  · obtain ⟨⟨k, hk, hv⟩, hleast⟩ := h.x1
    refine ⟨⟨_, hcorner hk ⟨Nat.le_refl _, hstop hk⟩, hv⟩, ?_⟩
    rintro v ⟨p, hp, rfl⟩
    obtain ⟨m, hm, hc, -⟩ := mem_pixels.mp hp
    exact (hleast ⟨m, hm, rfl⟩).trans (by exact_mod_cast hc.1)
  · obtain ⟨⟨k, hk, hv⟩, hgreatest⟩ := h.x2
    have hlast := hstop hk
    refine ⟨⟨((runs k).stop - 1, (runs k).y), hcorner hk ⟨by omega, by omega⟩, ?_⟩, ?_⟩
    · show g.x2 - 1 = ((runs k).stop - 1 : Nat)
      omega
    · rintro v ⟨p, hp, rfl⟩
      obtain ⟨m, hm, hc, -⟩ := mem_pixels.mp hp
      have hle := hgreatest ⟨m, hm, rfl⟩
      show (p.1 : Int) ≤ g.x2 - 1
      omega
  · obtain ⟨⟨k, hk, hv⟩, hleast⟩ := h.y1
    refine ⟨⟨_, hcorner hk ⟨Nat.le_refl _, hstop hk⟩, hv⟩, ?_⟩
    rintro v ⟨p, hp, rfl⟩
    obtain ⟨m, hm, -, hrow⟩ := mem_pixels.mp hp
    exact hleast ⟨m, hm, by rw [hrow]⟩
  · obtain ⟨⟨k, hk, hv⟩, hgreatest⟩ := h.y2
    refine ⟨⟨_, hcorner hk ⟨Nat.le_refl _, hstop hk⟩, hv⟩, ?_⟩
    rintro v ⟨p, hp, rfl⟩
    obtain ⟨m, hm, -, hrow⟩ := mem_pixels.mp hp
    exact hgreatest ⟨m, hm, by rw [hrow]⟩

theorem Summary.statistics (h : Summary runs ms g) (hpos : ∀ k ∈ ms, 0 < (runs k).width) :
    Statistics runs ms g.close where
  color := h.color
  area := by
    rw [length_pixels]
    exact h.area
  distinct := nodup_pixels
  box := h.tightBox hpos
  cen_x := by
    rw [(sum_pixels runs ms).1, length_pixels, ← h.area, ← h.cen_x]
    rfl
  cen_y := by
    rw [(sum_pixels runs ms).2, length_pixels, ← h.area, ← h.cen_y]
    rfl
  iterator_id := rfl

theorem sum_bounds {l : List Nat} {lo hi : Int} (h : ∀ v ∈ l, lo ≤ v ∧ v ≤ hi) :
    lo * l.length ≤ l.sum ∧ (l.sum : Int) ≤ hi * l.length := by
  induction l with
  | nil => simp
  | cons v l ih =>
    obtain ⟨hlo, hhi⟩ := h v List.mem_cons_self
    obtain ⟨ihlo, ihhi⟩ := ih fun u hu => h u (List.mem_cons_of_mem _ hu)
    simp only [List.sum_cons, List.length_cons, Nat.cast_add, Nat.cast_one, mul_add, mul_one]
    omega

theorem mean_bounds {l : List Nat} {lo hi : Int} (hl : l ≠ []) (h : ∀ v ∈ l, lo ≤ v ∧ v ≤ hi) :
    (lo : Rat) ≤ (l.sum : Nat) / l.length ∧ ((l.sum : Nat) / l.length : Rat) ≤ hi := by
  have hlength : (0 : Rat) < l.length := by exact_mod_cast List.length_pos_of_ne_nil hl
  obtain ⟨hlo, hhi⟩ := sum_bounds h
  generalize l.sum = total at hlo hhi ⊢
  rw [le_div_iff₀ hlength, div_le_iff₀ hlength]
  exact ⟨by exact_mod_cast hlo, by exact_mod_cast hhi⟩

/-- The mean of pixels lies in their box. -/
theorem Statistics.centroid (h : Statistics runs ms g) :
    (g.x1 ≤ g.cen_x ∧ g.cen_x ≤ g.x2) ∧ g.y1 ≤ g.cen_y ∧ g.cen_y ≤ g.y2 := by
  obtain ⟨hx1, hx2, hy1, hy2⟩ := h.box
  have hne : pixels runs ms ≠ [] := by
    obtain ⟨p, hp, -⟩ := hx1.1
    exact List.ne_nil_of_mem hp
  have hxs : ∀ v ∈ (pixels runs ms).map Prod.fst, g.x1 ≤ (v : Int) ∧ (v : Int) ≤ g.x2 := by
    intro v hv
    obtain ⟨p, hp, rfl⟩ := List.mem_map.mp hv
    exact ⟨hx1.2 ⟨p, hp, rfl⟩, hx2.2 ⟨p, hp, rfl⟩⟩
  have hys : ∀ v ∈ (pixels runs ms).map Prod.snd, g.y1 ≤ (v : Int) ∧ (v : Int) ≤ g.y2 := by
    intro v hv
    obtain ⟨p, hp, rfl⟩ := List.mem_map.mp hv
    exact ⟨hy1.2 ⟨p, hp, rfl⟩, hy2.2 ⟨p, hp, rfl⟩⟩
  have hx := mean_bounds (by simpa) hxs
  have hy := mean_bounds (by simpa) hys
  rw [List.length_map] at hx hy
  rw [h.cen_x, h.cen_y]
  exact ⟨hx, hy⟩

end LARCmaCS.CMVision
