import LARCmaCS.CMVision.Encode

/-!
# The encoding is faithful

Painting the runs that `encodeRuns` wrote over a cleared image gives the image
back (`encodeRuns_faithful`): a pixel that no run covers is clear, and runs do
not overlap.
-/

namespace LARCmaCS.CMVision

-- ---------------------------------------------------------------------------
-- Painting
-- ---------------------------------------------------------------------------

abbrev Canvas := Nat → Nat → Raw8

def Canvas.clear : Canvas := fun _ _ => 0

instance (r : Run) (c row : Nat) : Decidable (r.Contains c row) :=
  inferInstanceAs (Decidable (_ ∧ _))

def Run.paint (r : Run) (canvas : Canvas) : Canvas :=
  fun c row => if r.Contains c row then r.color else canvas c row

/-- The first `n` runs painted over a cleared image, in order. -/
def paintRuns (runs : Nat → Run) (n : Nat) : Canvas :=
  (List.range n).foldl (fun canvas k => (runs k).paint canvas) .clear

theorem paintRuns_succ (runs : Nat → Run) (n c row : Nat) :
    paintRuns runs (n + 1) c row =
      if (runs n).Contains c row then (runs n).color else paintRuns runs n c row := by
  rw [paintRuns, List.range_succ, List.foldl_append]
  rfl

theorem paintRuns_of_color {runs : Nat → Run} {n c row : Nat} {m : Raw8}
    (hcolor : ∀ k < n, (runs k).Contains c row → (runs k).color = m) :
    ((∃ k < n, (runs k).Contains c row) ∧ paintRuns runs n c row = m) ∨
      (∀ k < n, ¬ (runs k).Contains c row) ∧ paintRuns runs n c row = 0 := by
  induction n with
  | zero => exact .inr ⟨fun k hk => absurd hk (Nat.not_lt_zero k), rfl⟩
  | succ n ih =>
    rw [paintRuns_succ]
    by_cases hlast : (runs n).Contains c row
    · rw [if_pos hlast]
      exact .inl ⟨⟨n, Nat.lt_succ_self n, hlast⟩, hcolor n (Nat.lt_succ_self n) hlast⟩
    · rw [if_neg hlast]
      obtain ⟨⟨k, hk, hcontains⟩, hpaint⟩ | ⟨hnone, hpaint⟩ :=
        ih fun k hk => hcolor k (Nat.lt_succ_of_lt hk)
      · exact .inl ⟨⟨k, Nat.lt_succ_of_lt hk, hcontains⟩, hpaint⟩
      · refine .inr ⟨fun k hk => ?_, hpaint⟩
        rcases Nat.lt_succ_iff_lt_or_eq.mp hk with hlt | rfl
        · exact hnone k hlt
        · exact hlast

theorem Encoded.paintRuns {tmap : Image} {runs : Nat → Run} {n : Nat}
    (h : Encoded tmap runs n 0 tmap.height) (c row : Nat) :
    paintRuns runs n c row =
      if c < tmap.width ∧ row < tmap.height then tmap.pixel c row else 0 := by
  have hinside {k : Nat} (hk : k < n) (hc : (runs k).Contains c row) :
      c < tmap.width ∧ row < tmap.height := by
    obtain ⟨rfl, -, hlt⟩ := hc
    exact ⟨Nat.lt_of_lt_of_le hlt (h.inside k hk).1, h.row_lt hk⟩
  obtain ⟨⟨k, hk, hcontains⟩, hpaint⟩ | ⟨hnone, hpaint⟩ :=
    paintRuns_of_color fun k hk hc => (h.color k hk c row hc).symm
  · rw [hpaint, if_pos (hinside hk hcontains)]
  · rw [hpaint]
    split
    · rename_i hin
      by_contra hcolor
      obtain ⟨k, hk, hcontains⟩ := h.cover c row hin.1 (.inl hin.2) (Ne.symm hcolor)
      exact hnone k hk hcontains
    · rfl

-- ---------------------------------------------------------------------------
-- encodeRuns
-- ---------------------------------------------------------------------------

structure Faithful (tmap : Image) (l : RunList) : Prop where
  sorted : ∀ i k, i < k → k < l.usedRuns →
    (l.runs i).y < (l.runs k).y ∨ (l.runs i).y = (l.runs k).y ∧ (l.runs i).x < (l.runs k).x
  disjoint : ∀ i < l.usedRuns, ∀ k < l.usedRuns, i ≠ k →
    ∀ c row, ¬ ((l.runs i).Contains c row ∧ (l.runs k).Contains c row)
  pos : ∀ k < l.usedRuns, 0 < (l.runs k).width
  left : ∀ k < l.usedRuns, (l.runs k).x = 0 ∨
    tmap.pixel ((l.runs k).x - 1) (l.runs k).y ≠ (l.runs k).color
  right : ∀ k < l.usedRuns, (l.runs k).stop = tmap.width ∨
    tmap.pixel (l.runs k).stop (l.runs k).y ≠ (l.runs k).color
  parent : ∀ k < l.usedRuns, (l.runs k).parent = k
  next : ∀ k < l.usedRuns, (l.runs k).next = 0
  rowEnd : 0 < tmap.width → ∀ row < tmap.height,
    ∃ k < l.usedRuns, (l.runs k).y = row ∧ (l.runs k).stop = tmap.width
  paint : ∀ c row, paintRuns l.runs l.usedRuns c row =
    if c < tmap.width ∧ row < tmap.height then tmap.pixel c row else 0

theorem Encoded.faithful {tmap : Image} {l : RunList}
    (h : Encoded tmap l.runs l.usedRuns 0 tmap.height) : Faithful tmap l where
  sorted i k hik hk := by
    have hpos := h.pos i (by omega)
    rcases h.sorted i k hik hk with hrow | ⟨hrow, hle⟩
    · exact .inl hrow
    · exact .inr ⟨hrow, by omega⟩
  disjoint i hi k hk hne _ _ hboth := hne (h.unique hi hk hboth.1 hboth.2)
  pos k hk := by
    have hpos := h.pos k hk
    rw [Run.stop] at hpos
    omega
  left := h.leftMaximal
  right := h.maximal
  parent := h.parent
  next := h.next
  rowEnd _ row hrow := h.rowEnd row (.inl hrow)
  paint := h.paintRuns

theorem encodeRows_of_width {tmap : Image} (hwidth : tmap.width = 0) (n y : Nat) (l : RunList)
    (j : Nat) : encodeRows tmap n y l j = some (l, j) := by
  induction n generalizing y with
  | zero => rfl
  | succ n ih => simp [encodeRows, encodeRow, hwidth, ih]

/-- Every buffer takes every image, and unless it was filled its runs are an
encoding of the image. -/
theorem encodeRuns_faithful (tmap : Image) (l : RunList) (hmax : 0 < l.maxRuns) :
    ∃ l', encodeRuns tmap l = some l' ∧ l'.maxRuns = l.maxRuns ∧
      (l'.usedRuns < l'.maxRuns → Faithful tmap l') := by
  rcases Nat.eq_zero_or_pos tmap.width with hwidth | hwidth
  · refine ⟨{ l with usedRuns := 0 }, ?_, rfl, fun _ => ?_⟩
    · simp [encodeRuns, encodeRows_of_width hwidth]
    · constructor <;> intros <;> simp_all [paintRuns, Canvas.clear]
  · obtain ⟨l', hencode, hmax', hspec⟩ := encodeRuns_spec hwidth l hmax
    exact ⟨l', hencode, hmax', fun hused => (hspec hused).faithful⟩

theorem encodeRuns_faithful_two_columns :
    ∃ l', encodeRuns ⟨2, 2, fun k => [1, 0, 0, 2].getD k 0⟩ ⟨fun _ => ⟨0, 0, 0, 0, 0, 0⟩, 4, 0⟩ =
        some l' ∧ l'.usedRuns = 3 ∧
      Faithful ⟨2, 2, fun k => [1, 0, 0, 2].getD k 0⟩ l' := by
  obtain ⟨l', hencode, hmax, hspec⟩ := encodeRuns_faithful
    ⟨2, 2, fun k => [1, 0, 0, 2].getD k 0⟩ ⟨fun _ => ⟨0, 0, 0, 0, 0, 0⟩, 4, 0⟩ (by decide)
  have hused : l'.usedRuns = 3 := by
    cases hencode
    rfl
  exact ⟨l', hencode, hused, hspec (by rw [hused, hmax]; decide)⟩

theorem not_rowEnd_no_columns :
    ∃ l', encodeRuns ⟨0, 1, fun _ => 0⟩ ⟨fun _ => ⟨0, 0, 0, 0, 0, 0⟩, 1, 0⟩ = some l' ∧
      l'.usedRuns < l'.maxRuns ∧
      ¬ ∀ row < 1, ∃ k < l'.usedRuns, (l'.runs k).y = row ∧ (l'.runs k).stop = 0 := by
  refine ⟨_, rfl, by decide, fun h => ?_⟩
  obtain ⟨k, hk, -⟩ := h 0 Nat.one_pos
  exact Nat.not_lt_zero k hk

end LARCmaCS.CMVision
