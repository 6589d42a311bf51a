import LARCmaCS.CMVision.Limits
import LARCmaCS.CMVision.Statistics

/-!
# Groups of runs and their regions

`extractRegions` numbers the groups of coloured runs in the order of their
roots, gathers each into the region of that number and threads its runs by
`next`. `Collected` is the invariant of the loop over the runs. If there are
fewer groups than regions in the table, every group gets its region
(`extractRegions_statistics`); if not, the early return leaves the last region
open (`regionsWellFormed_iff`).
-/

namespace LARCmaCS.CMVision

-- ---------------------------------------------------------------------------
-- Groups
-- ---------------------------------------------------------------------------

/-- The runs are grouped: each run's parent is the least run of its group, the
runs of a group have one colour, every run has a pixel, and the runs come row by
row, from left to right. -/
structure Grouped (runs : Nat → Run) (num : Nat) : Prop where
  le : ∀ k < num, (runs k).parent ≤ k
  idem : ∀ k < num, (runs (runs k).parent).parent = (runs k).parent
  color : ∀ k < num, (runs (runs k).parent).color = (runs k).color
  pos : ∀ k < num, 0 < (runs k).width
  sorted : ∀ i k, i < k → k < num →
    (runs i).y < (runs k).y ∨ (runs i).y = (runs k).y ∧ (runs i).x ≤ (runs k).x

def Root (runs : Nat → Run) (k : Nat) : Prop := (runs k).color ≠ 0 ∧ (runs k).parent = k

instance (runs : Nat → Run) (k : Nat) : Decidable (Root runs k) := inferInstanceAs (Decidable (_ ∧ _))

def roots (runs : Nat → Run) (i : Nat) : List Nat := (List.range i).filter fun k => Root runs k

def rank (runs : Nat → Run) (r : Nat) : Nat := (roots runs r).length

def members (runs : Nat → Run) (r i : Nat) : List Nat :=
  (List.range i).filter fun k => (runs k).color ≠ 0 ∧ (runs k).parent = r

section Groups

variable {runs : Nat → Run} {num r i k : Nat}

theorem Grouped.rooted (h : Grouped runs num) : Rooted runs num where
  le k hk _ := h.le k hk
  color k hk hcolor := by rwa [h.color k hk]

theorem Grouped.root (h : Grouped runs num) (hk : k < num) (hcolor : (runs k).color ≠ 0) :
    Root runs (runs k).parent := ⟨by rwa [h.color k hk], h.idem k hk⟩

theorem Grouped.row_le (h : Grouped runs num) (hik : i < k) (hk : k < num) :
    (runs i).y ≤ (runs k).y := by
  rcases h.sorted i k hik hk with hrow | ⟨hrow, -⟩ <;> omega

theorem roots_succ (runs : Nat → Run) (i : Nat) :
    roots runs (i + 1) = roots runs i ++ if Root runs i then [i] else [] := by
  rw [roots, List.range_succ, List.filter_append, List.filter_singleton]
  simp [roots]

theorem members_succ (runs : Nat → Run) (r i : Nat) :
    members runs r (i + 1) =
      members runs r i ++ if (runs i).color ≠ 0 ∧ (runs i).parent = r then [i] else [] := by
  rw [members, List.range_succ, List.filter_append, List.filter_singleton]
  simp [members]

theorem mem_members : k ∈ members runs r i ↔ k < i ∧ (runs k).color ≠ 0 ∧ (runs k).parent = r := by
  simp [members]

theorem rank_le_rank (hri : r ≤ i) : rank runs r ≤ rank runs i := by
  induction i, hri using Nat.le_induction with
  | base => exact Nat.le_refl _
  | succ i _ ih =>
    rw [rank, rank, roots_succ, List.length_append]
    exact Nat.le_add_right_of_le ih

theorem rank_lt_rank (hr : Root runs r) (hri : r < i) : rank runs r < rank runs i := by
  have hsucc : rank runs (r + 1) = rank runs r + 1 := by
    rw [rank, roots_succ, if_pos hr, List.length_append]
    rfl
  have hle : rank runs (r + 1) ≤ rank runs i := rank_le_rank hri
  omega

theorem rank_injective (hr : Root runs r) (hi : Root runs i) (h : rank runs r = rank runs i) :
    r = i := by
  rcases Nat.lt_trichotomy r i with hlt | heq | hlt
  · have := rank_lt_rank hr hlt
    omega
  · exact heq
  · have := rank_lt_rank hi hlt
    omega

theorem members_root (h : Grouped runs num) (hi : i < num) (hroot : Root runs i) :
    members runs i (i + 1) = [i] := by
  have hnone : members runs i i = [] := by
    refine List.eq_nil_iff_forall_not_mem.mpr fun k hk => ?_
    obtain ⟨hki, -, hparent⟩ := mem_members.mp hk
    have := h.le k (by omega)
    omega
  rw [members_succ, if_pos ⟨hroot.1, hroot.2⟩, hnone, List.nil_append]

theorem getElem?_roots (i b r : Nat) :
    (roots runs i)[b]? = some r ↔ r < i ∧ Root runs r ∧ b = rank runs r := by
  induction i with
  | zero => simp [roots]
  | succ i ih =>
    have hbefore (hne : Root runs r → b = rank runs r → r ≠ i) :
        (roots runs i)[b]? = some r ↔ r < i + 1 ∧ Root runs r ∧ b = rank runs r := by
      rw [ih]
      constructor
      · rintro ⟨hri, hr, hb⟩
        exact ⟨by omega, hr, hb⟩
      · rintro ⟨hri, hr, hb⟩
        exact ⟨Nat.lt_of_le_of_ne (Nat.le_of_lt_succ hri) (hne hr hb), hr, hb⟩
    rw [roots_succ]
    by_cases hi : Root runs i
    · rw [if_pos hi]
      rcases Nat.lt_trichotomy b (rank runs i) with hlt | heq | hgt
      · rw [List.getElem?_append_left hlt]
        refine hbefore fun _ hb => ?_
        rintro rfl
        omega
      · rw [List.getElem?_append_right (Nat.le_of_eq heq.symm), heq, rank, Nat.sub_self]
        simp only [List.getElem?_cons_zero, Option.some.injEq]
        constructor
        · rintro rfl
          exact ⟨Nat.lt_succ_self i, hi, rfl⟩
        · rintro ⟨-, hr, hb⟩
          exact rank_injective hi hr hb
      · have hlong : (roots runs i ++ [i]).length ≤ b := by
          rw [List.length_append]
          exact hgt
        rw [List.getElem?_eq_none hlong]
        constructor
        · intro h
          cases h
        · rintro ⟨hri, -, hb⟩
          have hle : rank runs r ≤ rank runs i := rank_le_rank (Nat.le_of_lt_succ hri)
          omega
    · rw [if_neg hi, List.append_nil]
      refine hbefore fun hr _ => ?_
      rintro rfl
      exact hi hr

end Groups

open UnionFind in
theorem Encoded.grouped {tmap : Image} {l : RunList} (hheight : 2 ≤ tmap.height)
    (h : Encoded tmap l.runs l.usedRuns 0 tmap.height) (hused : l.usedRuns < l.maxRuns) :
    ∃ connected, connectComponents l = some connected ∧ connected.usedRuns = l.usedRuns ∧
      connected.maxRuns = l.maxRuns ∧ Grouped connected.runs connected.usedRuns := by
  obtain ⟨q, p, hconnect, hordered, hnames, hroot⟩ := connectComponents_spec hheight h hused
  refine ⟨_, hconnect, rfl, rfl, fun k hk => ?_, fun k hk => ?_, fun k hk => ?_, fun k hk => ?_,
    fun i k hik hk => ?_⟩
  · show q k ≤ k
    rw [hroot k hk]
    exact root_le p k
  · show q (q k) = q k
    have hlt : q k < l.usedRuns := by
      rw [hroot k hk]
      exact Nat.lt_of_le_of_lt (root_le p k) hk
    rw [hroot _ hlt, hroot k hk, root_root hordered]
  · show (l.runs (q k)).color = (l.runs k).color
    rw [hroot k hk]
    exact Touch.color ((hnames _ _).mp (root_root hordered k))
  · have hpos := h.pos k hk
    show 0 < (l.runs k).width
    rw [Run.stop] at hpos
    omega
  · have hpos := h.pos i (Nat.lt_trans hik hk)
    show (l.runs i).y < (l.runs k).y ∨ (l.runs i).y = (l.runs k).y ∧ (l.runs i).x ≤ (l.runs k).x
    rcases h.sorted i k hik hk with hrow | ⟨hrow, hle⟩
    · exact .inl hrow
    · exact .inr ⟨hrow, by omega⟩

-- ---------------------------------------------------------------------------
-- Threads
-- ---------------------------------------------------------------------------

/-- From run `i`, `next` leads through the runs `ms` and ends with 0. -/
inductive Threads (runs : Nat → Run) : Nat → List Nat → Prop
  | last {i : Nat} : (runs i).next = 0 → Threads runs i [i]
  | next {i k : Nat} {ms : List Nat} :
      (runs i).next = k → k ≠ 0 → Threads runs k ms → Threads runs i (i :: ms)

/-- The runs `ms` are threaded in increasing order; the last one's `next` is
not yet settled. -/
def Linked (runs : Nat → Run) (ms : List Nat) : Prop :=
  ms.IsChain fun a b => a < b ∧ (runs a).next = b

section Linked

variable {runs runs' : Nat → Run} {ms : List Nat} {a i : Nat}

theorem Linked.le_last (h : Linked runs ms) (hlast : ms.getLast? = some a) : ∀ k ∈ ms, k ≤ a := by
  induction ms with
  | nil => simp
  | cons m ms ih =>
    cases ms with
    | nil =>
      cases hlast
      simp
    | cons m' ms =>
      obtain ⟨⟨hlt, -⟩, hrest⟩ := List.isChain_cons_cons.mp h
      have hle := ih hrest (by simpa using hlast)
      intro k hk
      rcases List.mem_cons.mp hk with rfl | hk
      · have := hle m' List.mem_cons_self
        omega
      · exact hle k hk

theorem Linked.congr (h : Linked runs ms) (hlast : ms.getLast? = some a)
    (hruns : ∀ k ∈ ms, k ≠ a → (runs' k).next = (runs k).next) : Linked runs' ms := by
  have hle := h.le_last hlast
  refine h.imp_of_mem_imp fun k k' hk hk' hkk => ⟨hkk.1, ?_⟩
  have := hle k' hk'
  rw [hruns k hk (by omega)]
  exact hkk.2

theorem Linked.concat (h : Linked runs ms) (hlast : ms.getLast? = some a) (hai : a < i)
    (hnext : (runs a).next = i) : Linked runs (ms ++ [i]) := by
  refine List.isChain_append.mpr ⟨h, List.isChain_singleton i, fun k hk k' hk' => ?_⟩
  rw [hlast] at hk
  cases hk
  cases hk'
  exact ⟨hai, hnext⟩

theorem Linked.threads (h : Linked runs ms) (hfirst : ms.head? = some i)
    (hlast : ms.getLast? = some a) (hend : (runs a).next = 0) : Threads runs i ms := by
  induction ms generalizing i with
  | nil => cases hfirst
  | cons m ms ih =>
    cases hfirst
    cases ms with
    | nil =>
      cases hlast
      exact .last hend
    | cons m' ms =>
      obtain ⟨⟨hlt, hnext⟩, hrest⟩ := List.isChain_cons_cons.mp h
      exact .next hnext (by omega) (ih hrest rfl (by simpa using hlast))

end Linked

-- ---------------------------------------------------------------------------
-- The loop over the runs
-- ---------------------------------------------------------------------------

/-- The loop is at run `i`: earlier coloured runs have their group's number
for a parent, and the region of that number has gathered them. -/
structure Collected (base : RunList) (i : Nat) (t : Extraction) : Prop
    extends Extracting base i t where
  count : t.n = rank base.runs i
  number : ∀ k < i, (base.runs k).color ≠ 0 →
    (t.rmap.runs k).parent = rank base.runs (base.runs k).parent
  summary : ∀ r < i, Root base.runs r →
    Summary base.runs (members base.runs r i) (t.reg.regions (rank base.runs r))
  linked : ∀ r < i, Root base.runs r → Linked t.rmap.runs (members base.runs r i)

section Loop

variable {base : RunList} {num i : Nat} {t : Extraction}

theorem Collected.start (base : RunList) {reglist : RegionList} (hregs : 0 < reglist.maxRegions) :
    Collected base 0 ⟨base, reglist, 0⟩ := by
  refine ⟨⟨rfl, rfl, fun _ _ => rfl, ?_, hregs, ?_⟩, rfl, ?_, ?_, ?_⟩ <;>
    exact fun k hk => absurd hk (Nat.not_lt_zero k)

theorem opened_next (t : Extraction) (i k : Nat) :
    ((t.opened i).rmap.runs k).next = (t.rmap.runs k).next := by
  by_cases hk : k = i
  · subst hk
    simp [Extraction.opened]
  · rw [Extraction.opened, RunList.put_runs_of_ne _ hk]

theorem joined_next (t : Extraction) (i k : Nat) :
    ((t.joined i).rmap.runs k).next =
      if k = (t.reg.regions (t.target i)).iterator_id then i else (t.rmap.runs k).next := by
  by_cases hlast : k = (t.reg.regions (t.target i)).iterator_id
  · rw [if_pos hlast, hlast, Extraction.joined]
    simp
  · rw [if_neg hlast, Extraction.joined]
    simp only [RunList.put_runs_of_ne _ hlast]
    by_cases hk : k = i
    · subst hk
      simp
    · rw [RunList.put_runs_of_ne _ hk]

theorem Collected.pass (h : Collected base i t) (hcolor : (base.runs i).color = 0)
    (hnext : Extracting base (i + 1) t) : Collected base (i + 1) t := by
  have hroot : ¬ Root base.runs i := fun hr => hr.1 hcolor
  have hmembers (r : Nat) : members base.runs r (i + 1) = members base.runs r i := by
    rw [members_succ, if_neg (fun hr => hr.1 hcolor), List.append_nil]
  have hlt {r : Nat} (hr : r < i + 1) (hroot' : Root base.runs r) : r < i := by
    refine Nat.lt_of_le_of_ne (Nat.le_of_lt_succ hr) ?_
    rintro rfl
    exact hroot hroot'
  refine ⟨hnext, ?_, fun k hk hk0 => ?_, fun r hr hr' => ?_, fun r hr hr' => ?_⟩
  · rw [h.count, rank, rank, roots_succ, if_neg hroot, List.append_nil]
  · refine h.number k (Nat.lt_of_le_of_ne (Nat.le_of_lt_succ hk) ?_) hk0
    rintro rfl
    exact hk0 hcolor
  · rw [hmembers]
    exact h.summary r (hlt hr hr') hr'
  · rw [hmembers]
    exact h.linked r (hlt hr hr') hr'

theorem Collected.open (h : Collected base i t) (hgroup : Grouped base.runs num) (hi : i < num)
    (hroot : Root base.runs i) (hnext : Extracting base (i + 1) (t.opened i)) :
    Collected base (i + 1) (t.opened i) := by
  have hrun := h.ahead i (Nat.le_refl i)
  have hnew := members_root hgroup hi hroot
  have hold {r : Nat} (hr : r < i) : members base.runs r (i + 1) = members base.runs r i := by
    rw [members_succ, if_neg, List.append_nil]
    rintro ⟨-, hparent⟩
    have := hroot.2
    omega
  refine ⟨hnext, ?_, fun k hk hk0 => ?_, fun r hr hr' => ?_, fun r hr hr' => ?_⟩
  · rw [rank, roots_succ, if_pos hroot, List.length_append, ← rank, ← h.count]
    rfl
  · rw [Extraction.opened_parent]
    split
    · rename_i hki
      rw [hki, hroot.2, h.count]
    · exact h.number k (by omega) hk0
  · rcases Nat.lt_succ_iff_lt_or_eq.mp hr with hlt | rfl
    · have hne : rank base.runs r ≠ t.n := by
        rw [h.count]
        exact Nat.ne_of_lt (rank_lt_rank hr' hlt)
      rw [hold hlt, Extraction.opened, RegionList.put_regions_of_ne _ hne]
      exact h.summary r hlt hr'
    · rw [hnew, ← h.count, Extraction.opened, RegionList.put_regions_self, hrun]
      exact .ofRun base.runs r
  · rcases Nat.lt_succ_iff_lt_or_eq.mp hr with hlt | rfl
    · rw [hold hlt]
      exact (h.linked r hlt hr').congr (h.summary r hlt hr').last fun k _ _ => opened_next t i k
    · rw [hnew]
      exact List.isChain_singleton r

theorem Collected.join (h : Collected base i t) (hgroup : Grouped base.runs num) (hi : i < num)
    (hcolor : (base.runs i).color ≠ 0) (hparent : (base.runs i).parent ≠ i)
    (hnext : Extracting base (i + 1) (t.joined i)) : Collected base (i + 1) (t.joined i) := by
  have hrun := h.ahead i (Nat.le_refl i)
  have hlt : (base.runs i).parent < i := Nat.lt_of_le_of_ne (hgroup.le i hi) hparent
  have hroot := hgroup.root hi hcolor
  have htarget : t.target i = rank base.runs (base.runs i).parent := by
    rw [Extraction.target, hrun, h.number _ hlt hroot.1, hroot.2]
  generalize hr0 : (base.runs i).parent = r0 at *
  have hsummary := h.summary r0 hlt hroot
  have hmembers (r : Nat) : members base.runs r (i + 1) =
      members base.runs r i ++ if r0 = r then [i] else [] := by
    rw [members_succ, hr0]
    simp only [ne_eq, hcolor, not_false_eq_true, true_and]
  have hnoti : ¬ Root base.runs i := fun hr => hparent (hr0.symm.trans hr.2)
  have hltr {r : Nat} (hr : r < i + 1) (hr' : Root base.runs r) : r < i := by
    refine Nat.lt_of_le_of_ne (Nat.le_of_lt_succ hr) ?_
    rintro rfl
    exact hnoti hr'
  have hlast : (t.reg.regions (t.target i)).iterator_id ∈ members base.runs r0 i := by
    rw [htarget]
    exact List.mem_of_getLast? hsummary.last
  refine ⟨hnext, ?_, fun k hk hk0 => ?_, fun r hr hr' => ?_, fun r hr hr' => ?_⟩
  · rw [rank, roots_succ, if_neg hnoti, List.append_nil, ← rank, ← h.count]
    rfl
  · rw [Extraction.joined_parent]
    split
    · rename_i hki
      rw [htarget, hki, hr0]
    · exact h.number k (by omega) hk0
  · rw [hmembers, Extraction.joined, hrun]
    split
    · rename_i heq
      subst heq
      rw [← htarget, RegionList.put_regions_self, htarget]
      refine hsummary.addRun ?_ fun k hk => hgroup.row_le (mem_members.mp hk).1 hi
      rw [← hsummary.color r0 (mem_members.mpr ⟨hlt, hroot⟩), ← hgroup.color i hi, hr0]
    · rename_i hne
      have hrank : rank base.runs r ≠ t.target i := by
        rw [htarget]
        exact fun heq => hne (rank_injective hroot hr' heq.symm)
      rw [List.append_nil, RegionList.put_regions_of_ne _ hrank]
      exact h.summary r (hltr hr hr') hr'
  · rw [hmembers]
    have hlinked := h.linked r (hltr hr hr') hr'
    have hgetLast := (h.summary r (hltr hr hr') hr').last
    split
    · rename_i heq
      subst heq
      rw [← htarget] at hgetLast
      refine Linked.concat (hlinked.congr hgetLast fun k _ hk => ?_) hgetLast ?_ ?_
      · rw [joined_next, if_neg hk]
      · exact (mem_members.mp hlast).1
      · rw [joined_next, if_pos rfl]
    · rename_i hne
      rw [List.append_nil]
      refine hlinked.congr hgetLast fun k hk _ => ?_
      rw [joined_next, if_neg]
      rintro rfl
      exact hne ((mem_members.mp hlast).2.2.symm.trans (mem_members.mp hk).2.2)

theorem Collected.step (h : Collected base i t) (hgroup : Grouped base.runs num) (hi : i < num)
    (hroom : (t.step i).n < (t.step i).reg.maxRegions) : Collected base (i + 1) (t.step i) := by
  have hnext := h.toExtracting.step (h.within hgroup.rooted hi) hroom
  have hrun := h.ahead i (Nat.le_refl i)
  obtain ⟨hcolor, hstep⟩ | ⟨hcolor, hroot, hstep⟩ | ⟨hcolor, hroot, hstep⟩ := t.step_cases i <;>
    rw [hstep] at hnext ⊢ <;> rw [hrun] at hcolor
  · exact h.pass hcolor hnext
  · rw [hrun] at hroot
    exact h.open hgroup hi ⟨hcolor, hroot⟩ hnext
  · rw [hrun] at hroot
    exact h.join hgroup hi hcolor hroot hnext

theorem step_maxRegions (t : Extraction) (i : Nat) :
    (t.step i).reg.maxRegions = t.reg.maxRegions := by
  obtain ⟨-, hstep⟩ | ⟨-, -, hstep⟩ | ⟨-, -, hstep⟩ := t.step_cases i <;> rw [hstep] <;> rfl

theorem visitRuns_cases (hgroup : Grouped base.runs num) (hnum : num ≤ base.maxRuns) (k : Nat)
    (h : Collected base i t) (hk : i + k ≤ num) :
    (∃ t', Extraction.visitRuns k i t = some (t', false) ∧ Collected base (i + k) t' ∧
        t'.reg.maxRegions = t.reg.maxRegions) ∨
      ∃ t' j, Extraction.visitRuns k i t = some (t'.opened j, true) ∧ Collected base j t' ∧
        j < i + k ∧ Root base.runs j ∧ t'.reg.maxRegions = t.reg.maxRegions ∧
        rank base.runs j + 1 = t.reg.maxRegions := by
  induction k generalizing i t with
  | zero => exact .inl ⟨t, rfl, h, rfl⟩
  | succ k ih =>
    have hi : i < num := by omega
    have hvisit := Extraction.visit_eq (h.within hgroup.rooted hi) (by rw [h.maxRuns]; omega) h.room
    have hmax := step_maxRegions t i
    by_cases hfull : (t.step i).n ≥ (t.step i).reg.maxRegions
    · right
      simp only [hfull, decide_true] at hvisit
      have hrun := h.ahead i (Nat.le_refl i)
      have hroom := h.room
      obtain ⟨-, hstep⟩ | ⟨hcolor, hroot, hstep⟩ | ⟨-, -, hstep⟩ := t.step_cases i <;>
        rw [hstep] at hfull hvisit
      · omega
      · rw [hrun] at hcolor hroot
        refine ⟨t, i, by simp [Extraction.visitRuns, hvisit], h, by omega, ⟨hcolor, hroot⟩, rfl, ?_⟩
        have hcount := h.count
        have hfull' : t.n + 1 ≥ t.reg.maxRegions := hfull
        omega
      · exact absurd hroom (Nat.not_lt_of_le hfull)
    · simp only [hfull, decide_false] at hvisit
      have hnext := ih (h.step hgroup hi (Nat.lt_of_not_ge hfull)) (by omega)
      rw [hmax, Nat.add_right_comm] at hnext
      obtain ⟨t', hruns, hcollected, hmax'⟩ | ⟨t', j, hruns, hcollected, hj, hroot, hmax', hrank⟩ :=
        hnext
      · exact .inl ⟨t', by simpa [Extraction.visitRuns, hvisit] using hruns, hcollected, hmax'⟩
      · exact .inr ⟨t', j, by simpa [Extraction.visitRuns, hvisit] using hruns, hcollected, hj, hroot,
          hmax', hrank⟩

end Loop

-- ---------------------------------------------------------------------------
-- extractRegions
-- ---------------------------------------------------------------------------

section Extract

variable {reglist : RegionList} {base : RunList}

/-- With a region to spare, every group's region is closed over its runs. -/
theorem extractRegions_of_room (hgroup : Grouped base.runs base.usedRuns)
    (hused : base.usedRuns ≤ base.maxRuns)
    (hroom : (roots base.runs base.usedRuns).length < reglist.maxRegions) :
    ∃ reg rmap, extractRegions reglist base = some (reg, rmap) ∧
      reg.usedRegions = (roots base.runs base.usedRuns).length ∧
      ∀ b r, (roots base.runs base.usedRuns)[b]? = some r →
        Statistics base.runs (members base.runs r base.usedRuns) (reg.regions b) ∧
          Threads rmap.runs (reg.regions b).run_start (members base.runs r base.usedRuns) := by
  have hregs : 0 < reglist.maxRegions := by omega
  have hcases := visitRuns_cases hgroup hused base.usedRuns (Collected.start base hregs) (by omega)
  rw [Nat.zero_add] at hcases
  obtain ⟨t, hruns, h, -⟩ | ⟨t, j, -, -, hj, hroot, -, hrank⟩ := hcases
  · obtain ⟨t', hclose, -, -, -, hcount, hregions, hnext, -⟩ :=
      Extraction.closeAll_spec (by rw [h.maxRuns]; exact hused) (Nat.le_of_lt h.room) h.last t.n
        (Nat.le_refl _)
    refine ⟨{ t'.reg with usedRegions := t'.n }, t'.rmap, by simp [extractRegions, hruns, hclose],
      hcount.trans h.count, fun b r hb => ?_⟩
    obtain ⟨hr, hroot, rfl⟩ := (getElem?_roots _ b r).mp hb
    have hlt : rank base.runs r < t.n := by
      rw [h.count]
      exact rank_lt_rank hroot hr
    have hsummary := h.summary r hr hroot
    have hlast := hsummary.last
    have hclosed : t'.reg.regions (rank base.runs r) = (t.reg.regions (rank base.runs r)).close := by
      rw [hregions, if_pos hlt]
    refine ⟨?_, ?_⟩
    · show Statistics _ _ (t'.reg.regions (rank base.runs r))
      rw [hclosed]
      exact hsummary.statistics fun k hk => hgroup.pos k (mem_members.mp hk).1
    · show Threads t'.rmap.runs (t'.reg.regions (rank base.runs r)).run_start _
      rw [hclosed]
      refine ((h.linked r hr hroot).congr hlast fun k hk hne => ?_).threads hsummary.first hlast ?_
      · rw [hnext, if_neg]
        rintro ⟨b, hb, rfl⟩
        rw [h.count] at hb
        -- the last run of a region belongs to the region's group
        obtain ⟨hr', hroot', hbr⟩ := (getElem?_roots _ b _).mp (List.getElem?_eq_getElem hb)
        have hmem := List.mem_of_getLast? (h.summary _ hr' hroot').last
        rw [← hbr] at hmem
        have hsame := (mem_members.mp hmem).2.2.symm.trans (mem_members.mp hk).2.2
        rw [hsame] at hbr
        exact hne (by rw [hbr])
      · rw [hnext, if_pos ⟨_, hlt, rfl⟩]
  · have hle : rank base.runs (j + 1) ≤ rank base.runs base.usedRuns := rank_le_rank hj
    have hlt : rank base.runs j < rank base.runs (j + 1) := rank_lt_rank hroot (Nat.lt_succ_self j)
    have hlength : (roots base.runs base.usedRuns).length = rank base.runs base.usedRuns := rfl
    have hmax : rank base.runs j + 1 = reglist.maxRegions := hrank
    omega

/-- `extractRegions` gives every group of coloured runs one region, in the
order of the groups' first runs. -/
theorem extractRegions_statistics (reglist : RegionList) (base : RunList)
    (hgroup : Grouped base.runs base.usedRuns) (hused : base.usedRuns ≤ base.maxRuns)
    (hroom : (roots base.runs base.usedRuns).length < reglist.maxRegions) :
    ∃ reg rmap, extractRegions reglist base = some (reg, rmap) ∧
      reg.usedRegions = (roots base.runs base.usedRuns).length ∧
      ∀ b r, (roots base.runs base.usedRuns)[b]? = some r →
        Statistics base.runs (members base.runs r base.usedRuns) (reg.regions b) ∧
          Threads rmap.runs (reg.regions b).run_start (members base.runs r base.usedRuns) :=
  extractRegions_of_room hgroup hused hroom

def twoGroups : RunList where
  runs k := [⟨0, 0, 2, 1, 0, 0⟩, ⟨2, 0, 1, 2, 1, 0⟩, ⟨1, 1, 2, 1, 0, 0⟩].getD k ⟨0, 0, 0, 0, 0, 0⟩
  maxRuns := 4
  usedRuns := 3

theorem grouped_twoGroups : Grouped twoGroups.runs 3 where
  le := by decide
  idem := by decide
  color := by decide
  pos := by decide
  sorted i k hik hk := (by decide : ∀ k < 3, ∀ i < k, (twoGroups.runs i).y < (twoGroups.runs k).y ∨
    (twoGroups.runs i).y = (twoGroups.runs k).y ∧ (twoGroups.runs i).x ≤ (twoGroups.runs k).x) k hk i hik

def emptyTable (maxRegions : Nat) : RegionList := ⟨fun _ => ⟨0, 0, 0, 0, 0, 0, 0, 0, 0, 0⟩, maxRegions, 0⟩

theorem extractRegions_statistics_two_groups :
    ∃ reg rmap, extractRegions (emptyTable 3) twoGroups = some (reg, rmap) ∧ reg.usedRegions = 2 ∧
      Statistics twoGroups.runs [0, 2] (reg.regions 0) ∧
      Threads rmap.runs (reg.regions 0).run_start [0, 2] := by
  obtain ⟨reg, rmap, hextract, hcount, hregions⟩ := extractRegions_statistics (emptyTable 3) twoGroups
    grouped_twoGroups (by decide) (by decide)
  exact ⟨reg, rmap, hextract, hcount, hregions 0 0 (by decide)⟩

-- ---------------------------------------------------------------------------
-- The limit of the region table
-- ---------------------------------------------------------------------------

/-- How many runs the loop visits: all of them, or up to the root that fills a
table of `m` regions. -/
def visited (base : RunList) (m : Nat) : Nat :=
  match (roots base.runs base.usedRuns)[m - 1]? with
  | some r => r + 1
  | none => base.usedRuns

/-- The region is in order: closed over the runs `ms` it has absorbed. -/
structure WellFormed (runs final : Nat → Run) (ms : List Nat) (g : Region) : Prop where
  x_le : g.x1 ≤ g.x2
  x2 : IsGreatest {v : Int | ∃ p ∈ pixels runs ms, v = p.1} g.x2
  cen_x : g.x1 ≤ g.cen_x ∧ g.cen_x ≤ g.x2
  cen_y : g.y1 ≤ g.cen_y ∧ g.cen_y ≤ g.y2
  iterator_id : g.iterator_id = 0
  threads : ∃ ms', Threads final g.run_start ms'

def RegionsWellFormed (reglist : RegionList) (base : RunList) : Prop :=
  ∃ reg rmap, extractRegions reglist base = some (reg, rmap) ∧ ∀ b < reg.usedRegions,
    ∃ r, (roots base.runs base.usedRuns)[b]? = some r ∧
      WellFormed base.runs rmap.runs (members base.runs r (visited base reglist.maxRegions))
        (reg.regions b)

theorem Statistics.wellFormed {runs final : Nat → Run} {ms : List Nat} {g : Region}
    (h : Statistics runs ms g) (hthreads : Threads final g.run_start ms) :
    WellFormed runs final ms g := by
  obtain ⟨hx, hy⟩ := h.centroid
  exact ⟨by exact_mod_cast hx.1.trans hx.2, h.box.x2, hx, hy, h.iterator_id, _, hthreads⟩

theorem visited_of_room {m : Nat} (hroom : (roots base.runs base.usedRuns).length < m) :
    visited base m = base.usedRuns := by
  rw [visited, List.getElem?_eq_none (by omega)]

theorem visited_of_rank {m j : Nat} (hj : j < base.usedRuns) (hroot : Root base.runs j)
    (hrank : rank base.runs j + 1 = m) : visited base m = j + 1 := by
  have hget : (roots base.runs base.usedRuns)[m - 1]? = some j :=
    (getElem?_roots _ _ j).mpr ⟨hj, hroot, by omega⟩
  rw [visited, hget]

/-- The region that fills the table is left half open. -/
theorem not_wellFormed_ofRun {runs final : Nat → Run} {j : Nat} :
    ¬ WellFormed runs final [j] (.ofRun j (runs j)) := by
  intro h
  obtain ⟨p, hp, hv⟩ := h.x2.1
  obtain ⟨k, hk, hc, -⟩ := mem_pixels.mp hp
  obtain rfl := List.mem_singleton.mp hk
  have hx2 : (Region.ofRun k (runs k)).x2 = (runs k).stop := rfl
  omega

/-- Every region is left in order exactly if there are fewer groups than the
table has regions. -/
theorem regionsWellFormed_iff (reglist : RegionList) (base : RunList)
    (hgroup : Grouped base.runs base.usedRuns) (hused : base.usedRuns ≤ base.maxRuns)
    (hregs : 1 ≤ reglist.maxRegions) :
    RegionsWellFormed reglist base ↔
      (roots base.runs base.usedRuns).length < reglist.maxRegions := by
  constructor
  · rintro ⟨reg, rmap, hextract, hwell⟩
    have hcases := visitRuns_cases hgroup hused base.usedRuns
      (Collected.start base hregs) (by omega)
    rw [Nat.zero_add] at hcases
    obtain ⟨t, -, h, hmax⟩ | ⟨t, j, hruns, h, hj, hroot, hmax, hrank⟩ := hcases
    · have hroom := h.room
      rw [h.count, hmax] at hroom
      exact hroom
    · have hfull : rank base.runs j + 1 = reglist.maxRegions := hrank
      have hmax : t.reg.maxRegions = reglist.maxRegions := hmax
      have hresult : extractRegions reglist base = some
          ({ (t.opened j).reg with usedRegions := (t.opened j).reg.maxRegions }, (t.opened j).rmap) := by
        simp [extractRegions, hruns]
      obtain ⟨rfl, rfl⟩ := Prod.mk.inj (Option.some.inj (hextract.symm.trans hresult))
      obtain ⟨r, hr, hform⟩ := hwell t.n (by
        show t.n < t.reg.maxRegions
        exact h.room)
      obtain ⟨hr, hroot', hn⟩ := (getElem?_roots _ _ r).mp hr
      rw [h.count] at hn
      obtain rfl := rank_injective hroot hroot' hn
      rw [visited_of_rank hj hroot hfull, members_root hgroup hj hroot] at hform
      have hregion : (t.opened j).reg.regions t.n = .ofRun j (base.runs j) := by
        rw [Extraction.opened, RegionList.put_regions_self, h.ahead j (Nat.le_refl j)]
      have hform : WellFormed base.runs _ [j] ((t.opened j).reg.regions t.n) := hform
      rw [hregion] at hform
      exact absurd hform not_wellFormed_ofRun
  · intro hroom
    obtain ⟨reg, rmap, hextract, hcount, hregions⟩ := extractRegions_of_room hgroup hused hroom
    refine ⟨reg, rmap, hextract, fun b hb => ?_⟩
    rw [hcount] at hb
    have hget := List.getElem?_eq_getElem hb
    obtain ⟨hstats, hthreads⟩ := hregions b _ hget
    rw [visited_of_room hroom]
    exact ⟨_, hget, hstats.wellFormed hthreads⟩

theorem regionsWellFormed_iff_two_groups : RegionsWellFormed (emptyTable 3) twoGroups :=
  (regionsWellFormed_iff (emptyTable 3) twoGroups grouped_twoGroups (by decide) (by decide)).mpr
    (by decide)

/-- The second region of a table of two keeps its last run in `iterator_id`. -/
theorem not_regionsWellFormed_full : ¬ RegionsWellFormed (emptyTable 2) twoGroups := by
  rintro ⟨reg, rmap, hextract, hwell⟩
  obtain ⟨rfl, rfl⟩ := Prod.mk.inj (Option.some.inj hextract)
  obtain ⟨r, -, hform⟩ := hwell 1 (by decide)
  exact absurd hform.iterator_id (by decide)

end Extract

end LARCmaCS.CMVision
