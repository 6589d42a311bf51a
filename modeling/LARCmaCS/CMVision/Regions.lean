import LARCmaCS.Lib.UnionFind
import LARCmaCS.CMVision.Encode

/-!
# Regions of an image and of its runs

A region is a set of pixels of one colour connected through the four
neighbours. `touch_iff_sameRegion`: the runs of an encoded image that touch
in adjacent rows connect exactly the runs that lie in one region.
-/

namespace LARCmaCS.CMVision

-- ---------------------------------------------------------------------------
-- Pixels
-- ---------------------------------------------------------------------------

abbrev Pixel := Nat × Nat

def Image.At (tmap : Image) (p : Pixel) : Prop := p.1 < tmap.width ∧ p.2 < tmap.height

structure Adjacent (tmap : Image) (p q : Pixel) : Prop where
  left : tmap.At p
  right : tmap.At q
  color : tmap.pixel p.1 p.2 = tmap.pixel q.1 q.2
  neighbours : (p.2 = q.2 ∧ (p.1 + 1 = q.1 ∨ q.1 + 1 = p.1)) ∨
    (p.1 = q.1 ∧ (p.2 + 1 = q.2 ∨ q.2 + 1 = p.2))

def SameRegion (tmap : Image) : Pixel → Pixel → Prop := Relation.ReflTransGen (Adjacent tmap)

theorem Adjacent.symm {tmap : Image} {p q : Pixel} (h : Adjacent tmap p q) : Adjacent tmap q p :=
  ⟨h.right, h.left, h.color.symm, by have := h.neighbours; omega⟩

theorem sameRegion_equivalence (tmap : Image) : Equivalence (SameRegion tmap) where
  refl _ := .refl
  symm h := by
    induction h with
    | refl => exact .refl
    | tail _ hadj ih => exact .head hadj.symm ih
  trans := .trans

theorem SameRegion.color {tmap : Image} {p q : Pixel} (h : SameRegion tmap p q) :
    tmap.pixel p.1 p.2 = tmap.pixel q.1 q.2 := by
  induction h with
  | refl => rfl
  | tail _ hadj ih => exact ih.trans hadj.color

-- ---------------------------------------------------------------------------
-- Runs
-- ---------------------------------------------------------------------------

structure Touch (runs : Nat → Run) (n : Nat) (b a : Nat) : Prop where
  upper : b < n
  lower : a < n
  row : (runs a).y = (runs b).y + 1
  connects : (runs a).Connects (runs b)

def Run.first (r : Run) : Pixel := (r.x, r.y)

section Runs

variable {tmap : Image} {runs : Nat → Run} {n : Nat} (h : Encoded tmap runs n 0 tmap.height)
include h

theorem Encoded.at_of_contains {k c row : Nat} (hk : k < n) (hc : (runs k).Contains c row) :
    tmap.At (c, row) := by
  obtain ⟨rfl, hle, hlt⟩ := hc
  exact ⟨Nat.lt_of_lt_of_le hlt (h.inside k hk).1, h.row_lt hk⟩

theorem Encoded.sameRegion_first {k c row : Nat} (hk : k < n) (hc : (runs k).Contains c row) :
    SameRegion tmap (runs k).first (c, row) := by
  obtain ⟨rfl, hle, hlt⟩ := hc
  induction hle with
  | refl => exact .refl
  | @step c hle ih =>
    have hcontains : (runs k).Contains c (runs k).y := ⟨rfl, hle, by omega⟩
    have hcontains' : (runs k).Contains (c + 1) (runs k).y :=
      ⟨rfl, Nat.le_succ_of_le hle, hlt⟩
    refine .tail (ih (by omega)) ⟨h.at_of_contains hk hcontains, h.at_of_contains hk hcontains', ?_,
      .inl ⟨rfl, .inl rfl⟩⟩
    rw [h.color k hk _ _ hcontains, h.color k hk _ _ hcontains']

theorem Encoded.sameRegion_of_touch {b a : Nat} (ht : Touch runs n b a) :
    SameRegion tmap (runs b).first (runs a).first := by
  obtain ⟨hb, ha, hrow, hcolor, -, hoverlap⟩ := ht
  obtain ⟨c, hcb, hca⟩ : ∃ c, (runs b).Contains c (runs b).y ∧
      (runs a).Contains c ((runs b).y + 1) := by
    have hposb := h.pos b hb
    have hposa := h.pos a ha
    rcases hoverlap with ⟨hle, hlt⟩ | ⟨hle, hlt⟩
    · exact ⟨(runs a).x, ⟨rfl, hle, hlt⟩, hrow, Nat.le_refl _, hposa⟩
    · exact ⟨(runs b).x, ⟨rfl, Nat.le_refl _, hposb⟩, hrow, hle, hlt⟩
  have hadj : Adjacent tmap (c, (runs b).y) (c, (runs b).y + 1) := by
    refine ⟨h.at_of_contains hb hcb, h.at_of_contains ha hca, ?_, .inr ⟨rfl, .inl rfl⟩⟩
    rw [h.color b hb _ _ hcb, h.color a ha _ _ hca, hcolor]
  exact .trans (h.sameRegion_first hb hcb)
    (.head hadj ((sameRegion_equivalence tmap).symm (h.sameRegion_first ha hca)))

theorem Encoded.contains_succ {k c row : Nat} (hk : k < n) (hc : (runs k).Contains c row)
    (hwidth : c + 1 < tmap.width) (hcolor : tmap.pixel c row = tmap.pixel (c + 1) row) :
    (runs k).Contains (c + 1) row := by
  have hcol := h.color k hk c row hc
  obtain ⟨rfl, hle, hlt⟩ := hc
  refine ⟨rfl, by omega, Nat.lt_of_le_of_ne hlt fun heq => ?_⟩
  rcases h.maximal k hk with hend | hend
  · omega
  · rw [← heq, ← hcol] at hend
    exact hend hcolor.symm

/-- Neighbouring pixels of one colour lie in one run or in touching runs. -/
theorem Encoded.touch_of_adjacent {p q : Pixel} (hadj : Adjacent tmap p q)
    (hcolor : tmap.pixel p.1 p.2 ≠ 0) {i k : Nat} (hi : i < n) (hk : k < n)
    (hp : (runs i).Contains p.1 p.2) (hq : (runs k).Contains q.1 q.2) :
    i = k ∨ Touch runs n i k ∨ Touch runs n k i := by
  obtain ⟨c, row⟩ := p
  obtain ⟨c', row'⟩ := q
  obtain ⟨hatp, hatq, hsame, hneighbours⟩ := hadj
  simp only at hp hq hcolor hsame hneighbours
  have hci := h.color i hi _ _ hp
  have hck := h.color k hk _ _ hq
  have hconnects : (runs i).color = (runs k).color ∧ (runs i).color ≠ 0 :=
    ⟨by rw [← hci, ← hck, hsame], by rwa [← hci]⟩
  obtain ⟨rfl, rfl | rfl⟩ | ⟨hcol, hy⟩ := hneighbours
  · exact .inl (h.unique hi hk (h.contains_succ hi hp hatq.1 hsame) hq)
  · exact .inl (h.unique hi hk hp (h.contains_succ hk hq hatp.1 hsame.symm))
  · right
    obtain ⟨hrowi, hlei, hlti⟩ := hp
    obtain ⟨hrowk, hlek, hltk⟩ := hq
    simp only [Run.stop] at hlti hltk
    rcases hy with hy | hy
    · refine .inl ⟨hi, hk, by omega, hconnects.1.symm, hconnects.1 ▸ hconnects.2, ?_⟩
      simp only [Run.Overlaps]
      omega
    · refine .inr ⟨hk, hi, by omega, hconnects.1, hconnects.2, ?_⟩
      simp only [Run.Overlaps]
      omega

/-- The runs that touching connects are those whose pixels lie in one region. -/
theorem Encoded.touch_iff_sameRegion {i k : Nat} (hi : i < n) (hk : k < n)
    (hcolor : (runs i).color ≠ 0) {p q : Pixel} (hp : (runs i).Contains p.1 p.2)
    (hq : (runs k).Contains q.1 q.2) :
    Relation.EqvGen (Touch runs n) i k ↔ SameRegion tmap p q := by
  have hequiv := sameRegion_equivalence tmap
  constructor
  · intro hik
    have hfirst : SameRegion tmap (runs i).first (runs k).first :=
      UnionFind.eqvGen_le (F := fun i k => SameRegion tmap (runs i).first (runs k).first)
        (hequiv.comap fun k => (runs k).first) (fun b a ht => h.sameRegion_of_touch ht) hik
    exact hequiv.trans (hequiv.symm (h.sameRegion_first hi hp))
      (hequiv.trans hfirst (h.sameRegion_first hk hq))
  · intro hpq
    induction hpq generalizing k with
    | refl =>
      rw [h.unique hi hk hp hq]
      exact .refl k
    | @tail m q hpm hadj ih =>
      have hm : tmap.pixel m.1 m.2 ≠ 0 := by
        rw [← SameRegion.color hpm, h.color i hi _ _ hp]
        exact hcolor
      obtain ⟨l, hl, hml⟩ := h.cover m.1 m.2 hadj.left.1 (.inl hadj.left.2) hm
      refine .trans _ _ _ (ih hl hml) ?_
      rcases h.touch_of_adjacent hadj hm hl hk hml hq with rfl | ht | ht
      · exact .refl l
      · exact .rel _ _ ht
      · exact .symm _ _ (.rel _ _ ht)

end Runs

end LARCmaCS.CMVision
