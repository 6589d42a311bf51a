import Mathlib.Data.List.Perm.Subperm
import Mathlib.Data.List.ProdSigma
import LARCmaCS.CMVision.Groups
import LARCmaCS.CMVision.Limits

/-!
# Components as lists of pixels

The connected runs of an image and its regions: the members of a root's group
hold the pixels of one region, each once, and every coloured region has one
root. With that, `extractRegions` measures the regions of the image.
-/

namespace LARCmaCS.CMVision

/-- The pixels of the region that `p` lies in, each once. -/
structure IsRegionOf (tmap : Image) (p : Pixel) (ps : List Pixel) : Prop where
  nodup : ps.Nodup
  mem : ∀ q, q ∈ ps ↔ tmap.At q ∧ SameRegion tmap p q

structure Measures (tmap : Image) (ps : List Pixel) (g : Region) : Prop where
  color : ∀ p ∈ ps, tmap.pixel p.1 p.2 = g.color
  area : g.area = ps.length
  box : TightBox ps g
  cen_x : g.cen_x = ((ps.map Prod.fst).sum : Nat) / ps.length
  cen_y : g.cen_y = ((ps.map Prod.snd).sum : Nat) / ps.length

/-- Any pixels of different coloured regions are fewer than `m`. -/
def Image.FewerRegions (tmap : Image) (m : Nat) : Prop :=
  ∀ ps : List Pixel, (∀ p ∈ ps, tmap.At p ∧ tmap.pixel p.1 p.2 ≠ 0) →
    ps.Pairwise (fun p q => ¬SameRegion tmap p q) → ps.length < m

theorem IsRegionOf.congr {tmap : Image} {p q : Pixel} {ps : List Pixel} (h : IsRegionOf tmap p ps)
    (hpq : SameRegion tmap p q) : IsRegionOf tmap q ps := by
  have hequiv := sameRegion_equivalence tmap
  refine ⟨h.nodup, fun r => (h.mem r).trans (and_congr_right fun _ => ?_)⟩
  exact ⟨fun hr => hequiv.trans (hequiv.symm hpq) hr, fun hr => hequiv.trans hpq hr⟩

theorem IsRegionOf.perm {tmap : Image} {p : Pixel} {ps qs : List Pixel} (h : IsRegionOf tmap p ps)
    (h' : IsRegionOf tmap p qs) : ps.Perm qs :=
  (List.perm_ext_iff_of_nodup h.nodup h'.nodup).mpr fun q => (h.mem q).trans (h'.mem q).symm

theorem Image.fewerRegions_of_pixels (tmap : Image) {m : Nat} (h : tmap.width * tmap.height < m) :
    tmap.FewerRegions m := by
  intro ps hps hapart
  have hnodup : ps.Nodup := by
    refine hapart.imp fun {p q} hne heq => hne ?_
    rw [heq]
    exact .refl
  have hsub : ps ⊆ List.range tmap.width ×ˢ List.range tmap.height := by
    intro p hp
    obtain ⟨hwidth, hheight⟩ := (hps p hp).1
    exact List.mem_product.mpr ⟨List.mem_range.mpr hwidth, List.mem_range.mpr hheight⟩
  calc ps.length ≤ (List.range tmap.width ×ˢ List.range tmap.height).length :=
      (hnodup.subperm hsub).length_le
    _ = tmap.width * tmap.height := by rw [List.length_product, List.length_range, List.length_range]
    _ < m := h

-- ---------------------------------------------------------------------------
-- Connected runs
-- ---------------------------------------------------------------------------

/-- The run list describes the coloured regions of the image, one root for each. -/
structure Connected (tmap : Image) (l : RunList) : Prop where
  grouped : Grouped l.runs l.usedRuns
  color : ∀ r < l.usedRuns, tmap.pixel (l.runs r).first.1 (l.runs r).first.2 = (l.runs r).color
  region : ∀ r < l.usedRuns, Root l.runs r →
    IsRegionOf tmap (l.runs r).first (pixels l.runs (members l.runs r l.usedRuns))
  root : ∀ p, tmap.At p → tmap.pixel p.1 p.2 ≠ 0 →
    ∃ r < l.usedRuns, Root l.runs r ∧ SameRegion tmap (l.runs r).first p
  apart : ∀ r < l.usedRuns, ∀ s < l.usedRuns, Root l.runs r → Root l.runs s →
    SameRegion tmap (l.runs r).first (l.runs s).first → r = s

theorem Run.contains_first {r : Run} (h : r.x < r.stop) : r.Contains r.first.1 r.first.2 :=
  ⟨rfl, Nat.le_refl _, h⟩

theorem mem_pixels_iff_contains {runs : Nat → Run} {ms : List Nat} {p : Pixel} :
    p ∈ pixels runs ms ↔ ∃ k ∈ ms, (runs k).Contains p.1 p.2 := by
  rw [mem_pixels]
  constructor
  · rintro ⟨k, hk, ⟨hle, hlt⟩, hrow⟩
    exact ⟨k, hk, hrow.symm, hle, hlt⟩
  · rintro ⟨k, hk, hrow, hle, hlt⟩
    exact ⟨k, hk, ⟨hle, hlt⟩, hrow.symm⟩

section Encoded

variable {tmap : Image} {runs : Nat → Run} {n : Nat}

/-- No pixel lies in two runs. -/
theorem Encoded.nodup_pixels {y : Nat} (h : Encoded tmap runs n 0 y) {ms : List Nat} (hms : ms.Nodup)
    (hn : ∀ k ∈ ms, k < n) : (pixels runs ms).Nodup := by
  refine CMVision.nodup_pixels (hms.imp_of_mem fun {i k} hi hk hne => ?_)
  refine List.disjoint_left.mpr fun p hpi hpk => hne ?_
  obtain ⟨⟨hle, hlt⟩, hrow⟩ := Run.mem_pixels.mp hpi
  obtain ⟨⟨hle', hlt'⟩, hrow'⟩ := Run.mem_pixels.mp hpk
  exact h.unique (hn i hi) (hn k hk) ⟨hrow.symm, hle, hlt⟩ ⟨hrow'.symm, hle', hlt'⟩

end Encoded

open UnionFind in
theorem Encoded.connected {tmap : Image} {l : RunList} (hheight : 2 ≤ tmap.height)
    (h : Encoded tmap l.runs l.usedRuns 0 tmap.height) (hused : l.usedRuns < l.maxRuns) :
    ∃ connected, connectComponents l = some connected ∧ connected.usedRuns = l.usedRuns ∧
      connected.maxRuns = l.maxRuns ∧ Connected tmap connected := by
  obtain ⟨_, hconnect, -, -, hgrouped⟩ := h.grouped hheight hused
  obtain ⟨q, p, hconnect', -, hnames, hroot⟩ := connectComponents_spec hheight h hused
  obtain rfl := Option.some.inj (hconnect.symm.trans hconnect')
  have hfirst (k : Nat) (hk : k < l.usedRuns) :
      (l.runs k).Contains (l.runs k).first.1 (l.runs k).first.2 := Run.contains_first (h.pos k hk)
  have hregion {i k : Nat} (hi : i < l.usedRuns) (hk : k < l.usedRuns)
      (hcolor : (l.runs i).color ≠ 0) {a b : Pixel} (ha : (l.runs i).Contains a.1 a.2)
      (hb : (l.runs k).Contains b.1 b.2) : q i = q k ↔ SameRegion tmap a b := by
    rw [hroot i hi, hroot k hk, hnames i k]
    exact h.touch_iff_sameRegion hi hk hcolor ha hb
  refine ⟨_, hconnect, rfl, rfl, hgrouped, fun r hr => h.color r hr _ _ (hfirst r hr),
    fun r hr hroot => ⟨?_, fun s => ?_⟩, fun s hs hcolor => ?_, fun r hr s hs hroot hroot' hsame => ?_⟩
  · exact h.nodup_pixels (List.nodup_range.filter _) fun k hk => (mem_members.mp hk).1
  · rw [mem_pixels_iff_contains]
    constructor
    · rintro ⟨k, hk, hcontains⟩
      obtain ⟨hk, -, hparent⟩ := mem_members.mp hk
      exact ⟨h.at_of_contains hk hcontains,
        (hregion hr hk hroot.1 (hfirst r hr) hcontains).mp (hroot.2.trans hparent.symm)⟩
    · rintro ⟨hat, hsame⟩
      have hcolor : tmap.pixel s.1 s.2 ≠ 0 :=
        (SameRegion.color hsame).symm.trans_ne ((h.color r hr _ _ (hfirst r hr)).trans_ne hroot.1)
      obtain ⟨k, hk, hcontains⟩ := h.cover s.1 s.2 hat.1 (.inl hat.2) hcolor
      refine ⟨k, mem_members.mpr ⟨hk, ?_, ?_⟩, hcontains⟩
      · show (l.runs k).color ≠ 0
        rwa [← h.color k hk _ _ hcontains]
      · exact ((hregion hr hk hroot.1 (hfirst r hr) hcontains).mpr hsame).symm.trans hroot.2
  · obtain ⟨k, hk, hcontains⟩ := h.cover s.1 s.2 hs.1 (.inl hs.2) hcolor
    have hcolor' : (l.runs k).color ≠ 0 := by rwa [← h.color k hk _ _ hcontains]
    have hlt : q k < l.usedRuns := Nat.lt_of_le_of_lt (hgrouped.le k hk) hk
    have hrootk : Root (l.withParents q).runs (q k) := hgrouped.root hk hcolor'
    exact ⟨q k, hlt, hrootk, (hregion hlt hk hrootk.1 (hfirst _ hlt) hcontains).mp hrootk.2⟩
  · have hq := (hregion hr hs hroot.1 (hfirst r hr) (hfirst s hs)).mpr hsame
    exact hroot.2.symm.trans (hq.trans hroot'.2)

section Connected

variable {tmap : Image} {l : RunList}

theorem mem_roots {runs : Nat → Run} {r n : Nat} : r ∈ roots runs n ↔ r < n ∧ Root runs r := by
  rw [roots, List.mem_filter, List.mem_range, decide_eq_true_eq]

/-- There is one root for each coloured region. -/
theorem Connected.roots_lt_iff (h : Connected tmap l) (m : Nat) :
    (roots l.runs l.usedRuns).length < m ↔ tmap.FewerRegions m := by
  have hequiv := sameRegion_equivalence tmap
  constructor
  · intro hroots ps hps hapart
    refine Nat.lt_of_le_of_lt ?_ hroots
    have hroot (p : Pixel) : ∃ r, p ∈ ps → r ∈ roots l.runs l.usedRuns ∧
        SameRegion tmap (l.runs r).first p := by
      by_cases hp : p ∈ ps
      · obtain ⟨r, hr, hroot, hsame⟩ := h.root p (hps p hp).1 (hps p hp).2
        exact ⟨r, fun _ => ⟨mem_roots.mpr ⟨hr, hroot⟩, hsame⟩⟩
      · exact ⟨0, fun hp' => absurd hp' hp⟩
    choose rootOf hrootOf using hroot
    -- the roots of different regions differ
    have hnodup : (ps.map rootOf).Nodup := by
      rw [List.Nodup, List.pairwise_map]
      refine hapart.imp_of_mem fun {p q} hp hq hne heq => hne ?_
      have hp' := (hrootOf p hp).2
      rw [heq] at hp'
      exact hequiv.trans (hequiv.symm hp') (hrootOf q hq).2
    have hsub : ps.map rootOf ⊆ roots l.runs l.usedRuns := by
      intro r hr
      obtain ⟨p, hp, rfl⟩ := List.mem_map.mp hr
      exact (hrootOf p hp).1
    calc ps.length = (ps.map rootOf).length := (List.length_map _).symm
      _ ≤ (roots l.runs l.usedRuns).length := (hnodup.subperm hsub).length_le
  · intro hfewer
    have hlength : ((roots l.runs l.usedRuns).map fun r => (l.runs r).first).length =
        (roots l.runs l.usedRuns).length := List.length_map _
    rw [← hlength]
    refine hfewer _ (fun p hp => ?_) ?_
    · obtain ⟨r, hr, rfl⟩ := List.mem_map.mp hp
      obtain ⟨hr, hroot⟩ := mem_roots.mp hr
      have hregion := h.region r hr hroot
      refine ⟨?_, by rw [h.color r hr]; exact hroot.1⟩
      have hmem : (l.runs r).first ∈ pixels l.runs (members l.runs r l.usedRuns) := by
        refine mem_pixels_iff_contains.mpr ⟨r, mem_members.mpr ⟨hr, hroot⟩, ?_⟩
        have hpos := h.grouped.pos r hr
        exact Run.contains_first (by rw [Run.stop]; omega)
      exact ((hregion.mem _).mp hmem).1
    · rw [List.pairwise_map]
      have hnodup : (roots l.runs l.usedRuns).Nodup := List.nodup_range.filter _
      refine hnodup.imp_of_mem fun {r s} hr hs hne hsame => hne ?_
      obtain ⟨hr, hroot⟩ := mem_roots.mp hr
      obtain ⟨hs, hroot'⟩ := mem_roots.mp hs
      exact h.apart r hr s hs hroot hroot' hsame

end Connected

-- ---------------------------------------------------------------------------
-- Their regions
-- ---------------------------------------------------------------------------

section Extract

variable {reglist reg : RegionList} {base rmap : RunList}

theorem extractRegions_used (hgroup : Grouped base.runs base.usedRuns)
    (hused : base.usedRuns ≤ base.maxRuns) (hregs : 0 < reglist.maxRegions) :
    ∃ reg rmap, extractRegions reglist base = some (reg, rmap) ∧
      reg.maxRegions = reglist.maxRegions ∧
      reg.usedRegions = min reglist.maxRegions (roots base.runs base.usedRuns).length := by
  have hcases := visitRuns_cases hgroup hused base.usedRuns (Collected.start base hregs) (by omega)
  rw [Nat.zero_add] at hcases
  obtain ⟨t, hruns, h, hmax⟩ | ⟨t, j, hruns, -, hj, hroot, hmax, hrank⟩ := hcases
  · obtain ⟨t', hclose, -, -, hmax', hcount, -⟩ :=
      Extraction.closeAll_spec (by rw [h.maxRuns]; exact hused) (Nat.le_of_lt h.room) h.last t.n
        (Nat.le_refl _)
    refine ⟨{ t'.reg with usedRegions := t'.n }, t'.rmap, by simp [extractRegions, hruns, hclose],
      hmax'.trans hmax, ?_⟩
    have hroom : t.n < t.reg.maxRegions := h.room
    have hroots : t.n = (roots base.runs base.usedRuns).length := h.count
    have hmax : t.reg.maxRegions = reglist.maxRegions := hmax
    show t'.n = _
    omega
  · have hmax : t.reg.maxRegions = reglist.maxRegions := hmax
    have hrank : rank base.runs j + 1 = reglist.maxRegions := hrank
    refine ⟨{ (t.opened j).reg with usedRegions := (t.opened j).reg.maxRegions }, (t.opened j).rmap,
      by simp [extractRegions, hruns], hmax, ?_⟩
    have hle : rank base.runs (j + 1) ≤ rank base.runs base.usedRuns := rank_le_rank hj
    have hlt : rank base.runs j < rank base.runs (j + 1) := rank_lt_rank hroot (Nat.lt_succ_self j)
    have hlength : (roots base.runs base.usedRuns).length = rank base.runs base.usedRuns := rfl
    show t.reg.maxRegions = _
    omega

end Extract

/-- The table holds one region for each coloured region of the image, the one
of `seed b` at index `b`. -/
structure RegionsOf (tmap : Image) (reglist : RegionList) (seed : Nat → Pixel) : Prop where
  colored : ∀ b < reglist.usedRegions, tmap.At (seed b) ∧ tmap.pixel (seed b).1 (seed b).2 ≠ 0
  measures : ∀ b < reglist.usedRegions, ∃ ps, IsRegionOf tmap (seed b) ps ∧
    Measures tmap ps (reglist.regions b)
  apart : ∀ b < reglist.usedRegions, ∀ b' < reglist.usedRegions,
    SameRegion tmap (seed b) (seed b') → b = b'
  cover : ∀ p, tmap.At p → tmap.pixel p.1 p.2 ≠ 0 →
    ∃ b < reglist.usedRegions, SameRegion tmap (seed b) p

theorem Connected.extractRegions {tmap : Image} {base : RunList} (h : Connected tmap base)
    (hused : base.usedRuns ≤ base.maxRuns) {reglist : RegionList}
    (hregs : tmap.FewerRegions reglist.maxRegions) :
    ∃ reg rmap seed, extractRegions reglist base = some (reg, rmap) ∧
      RegionsOf tmap reg seed := by
  have hroom := (h.roots_lt_iff reglist.maxRegions).mpr hregs
  obtain ⟨reg, rmap, hextract, hcount, hregions⟩ := extractRegions_of_room h.grouped hused hroom
  -- the region at an index belongs to the root of that rank
  have hroot (b : Nat) (hb : b < reg.usedRegions) : ∃ r < base.usedRuns, Root base.runs r ∧
      (roots base.runs base.usedRuns)[b]? = some r := by
    rw [hcount] at hb
    have hget := List.getElem?_eq_getElem hb
    obtain ⟨hr, hroot, -⟩ := (getElem?_roots _ b _).mp hget
    exact ⟨_, hr, hroot, hget⟩
  choose! rootOf hlt hrootOf hget using hroot
  have hrank (r : Nat) (hr : r < base.usedRuns) (hroot : Root base.runs r) :
      rank base.runs r < reg.usedRegions ∧ rootOf (rank base.runs r) = r := by
    have hget' := (getElem?_roots _ _ r).mpr ⟨hr, hroot, rfl⟩
    have hlt : rank base.runs r < reg.usedRegions := by
      rw [hcount]
      exact (List.getElem?_eq_some_iff.mp hget').1
    exact ⟨hlt, Option.some.inj ((hget _ hlt).symm.trans hget')⟩
  refine ⟨reg, rmap, fun b => (base.runs (rootOf b)).first, hextract, fun b hb => ?_, fun b hb => ?_,
    fun b hb b' hb' hsame => ?_, fun p hp hcolor => ?_⟩
  · have hregion := h.region _ (hlt b hb) (hrootOf b hb)
    have hpos := h.grouped.pos _ (hlt b hb)
    have hmem : (base.runs (rootOf b)).first ∈
        pixels base.runs (members base.runs (rootOf b) base.usedRuns) := by
      refine mem_pixels_iff_contains.mpr ⟨rootOf b, mem_members.mpr ⟨hlt b hb, hrootOf b hb⟩, ?_⟩
      exact Run.contains_first (by rw [Run.stop]; omega)
    refine ⟨((hregion.mem _).mp hmem).1, ?_⟩
    rw [h.color _ (hlt b hb)]
    exact (hrootOf b hb).1
  · have hregion := h.region _ (hlt b hb) (hrootOf b hb)
    obtain ⟨hstats, -⟩ := hregions b _ (hget b hb)
    refine ⟨_, hregion, fun p hp => ?_, hstats.area, hstats.box, hstats.cen_x, hstats.cen_y⟩
    have hmem : rootOf b ∈ members base.runs (rootOf b) base.usedRuns :=
      mem_members.mpr ⟨hlt b hb, hrootOf b hb⟩
    rw [← SameRegion.color ((hregion.mem p).mp hp).2, h.color _ (hlt b hb)]
    exact hstats.color _ hmem
  · have hsame := h.apart _ (hlt b hb) _ (hlt b' hb') (hrootOf b hb) (hrootOf b' hb') hsame
    have hb := ((getElem?_roots _ b _).mp (hget b hb)).2.2
    have hb' := ((getElem?_roots _ b' _).mp (hget b' hb')).2.2
    rw [hb, hb', hsame]
  · obtain ⟨r, hr, hroot, hsame⟩ := h.root p hp hcolor
    obtain ⟨hlt, heq⟩ := hrank r hr hroot
    exact ⟨rank base.runs r, hlt, by rwa [heq]⟩

end LARCmaCS.CMVision
