import Mathlib.Data.List.Basic

/-!
# Rosters that follow observations

A roster is a list of entries of which some are selected. A stream of
observations is laid over it: the k-th observation goes to the k-th selected
entry, entries left over are hidden, observations left over enlist new entries
at the end. `follow` says so at once; the loop of `visit` does it with a
cursor, and `hideFrom_foldl_visit` says that they agree.
-/

namespace Roster

variable {Entry Obs : Type*}

/-- How observations act on entries. Nothing that is done to an entry selects
or unselects it. -/
structure Rules (Entry Obs : Type*) where
  sel : Entry → Bool
  pose : Obs → Entry → Entry
  hide : Entry → Entry
  enlist : Nat → Obs → Entry
  sel_pose : ∀ d a, sel (pose d a) = sel a
  sel_hide : ∀ a, sel (hide a) = sel a
  sel_enlist : ∀ n d, sel (enlist n d) = true

structure Loop (Entry : Type*) where
  roster : List Entry
  made : Nat
  cursor : Nat

namespace Rules

variable (R : Rules Entry Obs)

-- ---------------------------------------------------------------------------
-- What it means to follow
-- ---------------------------------------------------------------------------

def update : List Entry → List Obs → List Entry
  | [], _ => []
  | a :: as, [] => (if R.sel a then R.hide a else a) :: update as []
  | a :: as, d :: ds => if R.sel a then R.pose d a :: update as ds else a :: update as (d :: ds)

def newcomers : Nat → List Obs → List Entry
  | _, [] => []
  | n, d :: ds => R.pose d (R.enlist n d) :: newcomers (n + 1) ds

def follow (made : Nat) (roster : List Entry) (ds : List Obs) : List Entry :=
  R.update roster ds ++ R.newcomers made (ds.drop (roster.countP R.sel))

-- ---------------------------------------------------------------------------
-- The loop
-- ---------------------------------------------------------------------------

def seek (roster : List Entry) (j : Nat) : Nat := j + (roster.drop j).findIdx R.sel

def visit (s : Loop Entry) (d : Obs) : Loop Entry :=
  let j := R.seek s.roster s.cursor
  let s := if j + 1 > s.roster.length then
    { s with roster := s.roster ++ [R.enlist s.made d], made := s.made + 1 } else s
  { s with roster := s.roster.modify j (R.pose d), cursor := j + 1 }

def hideFrom (j : Nat) (roster : List Entry) : List Entry :=
  roster.mapIdx fun i a => if j ≤ i ∧ R.sel a then R.hide a else a

variable {R} {pre done rest post roster : List Entry} {ds : List Obs}

theorem visit_of_end {s : Loop Entry} (h : R.seek s.roster s.cursor + 1 > s.roster.length)
    (d : Obs) :
    R.visit s d =
      ⟨(s.roster ++ [R.enlist s.made d]).modify (R.seek s.roster s.cursor) (R.pose d), s.made + 1,
        R.seek s.roster s.cursor + 1⟩ := by
  simp only [visit, if_pos h]

theorem visit_of_within {s : Loop Entry} (h : ¬R.seek s.roster s.cursor + 1 > s.roster.length)
    (d : Obs) :
    R.visit s d =
      ⟨s.roster.modify (R.seek s.roster s.cursor) (R.pose d), s.made,
        R.seek s.roster s.cursor + 1⟩ := by
  simp only [visit, if_neg h]

theorem seek_found (hpre : ∀ b ∈ pre, R.sel b = false) {a : Entry} (ha : R.sel a = true) :
    R.seek (done ++ (pre ++ a :: post)) done.length = (done ++ pre).length := by
  have hfind : (pre ++ a :: post).findIdx R.sel = pre.length := by
    rw [List.findIdx_append, if_neg]
    · rw [List.findIdx_cons, ha]
      simp
    · rw [List.findIdx_eq_length.mpr hpre]
      exact Nat.lt_irrefl _
  rw [seek, List.drop_left, hfind, List.length_append]

theorem seek_end (hrest : ∀ b ∈ rest, R.sel b = false) :
    R.seek (done ++ rest) done.length = (done ++ rest).length := by
  rw [seek, List.drop_left, List.findIdx_eq_length.mpr hrest, List.length_append]

theorem modify_length_append (pre : List Entry) (a : Entry) (post : List Entry) (f : Entry → Entry) :
    (pre ++ a :: post).modify pre.length f = pre ++ f a :: post := by
  induction pre with
  | nil => rfl
  | cons b pre ih => rw [List.cons_append, List.length_cons, List.modify_succ_cons, ih, List.cons_append]

theorem visit_found (hpre : ∀ b ∈ pre, R.sel b = false) {a : Entry} (ha : R.sel a = true)
    (made : Nat) (d : Obs) :
    R.visit ⟨done ++ (pre ++ a :: post), made, done.length⟩ d =
      ⟨(done ++ pre ++ [R.pose d a]) ++ post, made, (done ++ pre ++ [R.pose d a]).length⟩ := by
  have hinside : ¬(done ++ pre).length + 1 > (done ++ (pre ++ a :: post)).length := by
    simp only [List.length_append, List.length_cons]
    omega
  have hmodify : (done ++ (pre ++ a :: post)).modify (done ++ pre).length (R.pose d) =
      done ++ pre ++ [R.pose d a] ++ post := by
    rw [← List.append_assoc, modify_length_append]
    simp
  simp only [visit, seek_found hpre ha, if_neg hinside, hmodify]
  exact congrArg (Loop.mk _ _) (by simp [Nat.add_assoc])

theorem visit_enlist (hrest : ∀ b ∈ rest, R.sel b = false) (made : Nat) (d : Obs) :
    R.visit ⟨done ++ rest, made, done.length⟩ d =
      ⟨(done ++ rest ++ [R.pose d (R.enlist made d)]) ++ [], made + 1,
        (done ++ rest ++ [R.pose d (R.enlist made d)]).length⟩ := by
  have hmodify : (done ++ rest ++ [R.enlist made d]).modify (done ++ rest).length (R.pose d) =
      done ++ rest ++ [R.pose d (R.enlist made d)] := by
    rw [modify_length_append]
  simp only [visit, seek_end hrest, Nat.lt_succ_self, gt_iff_lt, if_true, hmodify, List.append_nil]
  exact congrArg (Loop.mk _ _) (by simp [Nat.add_assoc])

theorem update_skip (hpre : ∀ b ∈ pre, R.sel b = false) (rest : List Entry) (ds : List Obs) :
    R.update (pre ++ rest) ds = pre ++ R.update rest ds := by
  induction pre with
  | nil => rfl
  | cons b pre ih =>
    have hb := hpre b (by simp)
    have ih := ih fun c hc => hpre c (by simp [hc])
    cases ds <;> simp [update, hb, ih]

theorem follow_found (hpre : ∀ b ∈ pre, R.sel b = false) {a : Entry} (ha : R.sel a = true)
    (made : Nat) (d : Obs) (ds : List Obs) :
    R.follow made (pre ++ a :: post) (d :: ds) = pre ++ R.pose d a :: R.follow made post ds := by
  have hcount : (pre ++ a :: post).countP R.sel = post.countP R.sel + 1 := by
    rw [List.countP_append, List.countP_cons, ha, List.countP_eq_zero.mpr (by simpa using hpre)]
    simp
  rw [follow, hcount, update_skip hpre, List.drop_succ_cons, follow]
  simp [update, ha]

theorem follow_enlist (hrest : ∀ b ∈ rest, R.sel b = false) (made : Nat) (ds : List Obs) :
    R.follow made rest ds = rest ++ R.newcomers made ds := by
  have hskip := update_skip hrest [] ds
  rw [List.append_nil] at hskip
  rw [follow, hskip, List.countP_eq_zero.mpr (by simpa using hrest)]
  cases ds <;> simp [update]

theorem update_nil (roster : List Entry) :
    R.update roster [] = roster.map fun a => if R.sel a then R.hide a else a := by
  induction roster with
  | nil => rfl
  | cons a roster ih => rw [update, ih, List.map_cons]

theorem hideFrom_length (done rest : List Entry) :
    R.hideFrom done.length (done ++ rest) = done ++ R.update rest [] := by
  have hdone : done.mapIdx (fun i a => if done.length ≤ i ∧ R.sel a then R.hide a else a) = done := by
    apply List.ext_getElem?
    intro i
    rw [List.getElem?_mapIdx]
    cases hi : done[i]? with
    | none => rfl
    | some a =>
      have hlt : ¬done.length ≤ i := Nat.not_le.mpr (List.getElem?_eq_some_iff.mp hi).1
      simp [hlt]
  rw [hideFrom, List.mapIdx_append, hdone, update_nil]
  congr 1
  apply List.ext_getElem?
  intro i
  simp

theorem exists_first_sel (R : Rules Entry Obs) (rest : List Entry) :
    (∀ b ∈ rest, R.sel b = false) ∨
      ∃ pre a post, rest = pre ++ a :: post ∧ (∀ b ∈ pre, R.sel b = false) ∧ R.sel a = true := by
  induction rest with
  | nil => exact .inl (by simp)
  | cons c rest ih =>
    cases hc : R.sel c with
    | true => exact .inr ⟨[], c, rest, rfl, by simp, hc⟩
    | false =>
      obtain hnone | ⟨pre, a, post, rfl, hpre, ha⟩ := ih
      · exact .inl (by simpa [hc] using hnone)
      · exact .inr ⟨c :: pre, a, post, rfl, by simpa [hc] using hpre, ha⟩

/-- The loop with its cursor, then the pass that hides what the cursor did not
reach, is `follow` of what stood behind the cursor. -/
theorem hideFrom_foldl_visit (done rest : List Entry) (made : Nat) (ds : List Obs) :
    R.hideFrom (ds.foldl R.visit ⟨done ++ rest, made, done.length⟩).cursor
        (ds.foldl R.visit ⟨done ++ rest, made, done.length⟩).roster =
      done ++ R.follow made rest ds := by
  induction ds generalizing done rest made with
  | nil => simp [hideFrom_length, follow, newcomers]
  | cons d ds ih =>
    rw [List.foldl_cons]
    obtain hrest | ⟨pre, a, post, rfl, hpre, ha⟩ := R.exists_first_sel rest
    · rw [visit_enlist hrest, ih, follow_enlist hrest, follow_enlist (by simp)]
      simp [newcomers]
    · rw [visit_found hpre ha, ih, follow_found hpre ha]
      simp

-- ---------------------------------------------------------------------------
-- Two rosters in one list
-- ---------------------------------------------------------------------------

theorem hideFrom_cons (j : Nat) (a : Entry) (roster : List Entry) :
    R.hideFrom j (a :: roster) =
      (if j = 0 ∧ R.sel a then R.hide a else a) :: R.hideFrom (j - 1) roster := by
  simp only [hideFrom, List.mapIdx_cons, Nat.le_zero, Nat.sub_le_iff_le_add]

def Disjoint (R R' : Rules Entry Obs) : Prop := ∀ a, R.sel a = true → R'.sel a = false

variable {R' : Rules Entry Obs}

theorem Disjoint.symm (h : R.Disjoint R') : R'.Disjoint R := by
  intro a ha
  cases hsel : R.sel a with
  | false => rfl
  | true =>
    rw [h a hsel] at ha
    cases ha

theorem sel_newcomers {made : Nat} {a : Entry} (ha : a ∈ R.newcomers made ds) : R.sel a = true := by
  induction ds generalizing made with
  | nil => cases ha
  | cons d ds ih =>
    rcases List.mem_cons.mp ha with rfl | ha
    · rw [R.sel_pose, R.sel_enlist]
    · exact ih ha

theorem hideFrom_of_not_sel {j : Nat} (h : ∀ a ∈ roster, R.sel a = false) :
    R.hideFrom j roster = roster := by
  induction roster generalizing j with
  | nil => rfl
  | cons a roster ih =>
    have ha := h a (by simp)
    have ih := ih (j := j - 1) fun b hb => h b (by simp [hb])
    simp [hideFrom_cons, ha, ih]

theorem hideFrom_append (j : Nat) (pre post : List Entry) :
    R.hideFrom j (pre ++ post) = R.hideFrom j pre ++ R.hideFrom (j - pre.length) post := by
  simp only [hideFrom, List.mapIdx_append, Nat.sub_le_iff_le_add]

theorem update_hideFrom (h : R.Disjoint R') (j : Nat) (roster : List Entry) (ds : List Obs) :
    R.update (R'.hideFrom j roster) ds = R'.hideFrom j (R.update roster ds) := by
  induction roster generalizing j ds with
  | nil => rfl
  | cons a roster ih =>
    rw [hideFrom_cons]
    cases hsel : R.sel a with
    | true =>
      have hother := h a hsel
      cases ds with
      | nil =>
        have hhide : R'.sel (R.hide a) = false := h _ ((R.sel_hide a).trans hsel)
        simp [update, hsel, hother, hhide, hideFrom_cons, ih]
      | cons d ds =>
        have hpose : R'.sel (R.pose d a) = false := h _ ((R.sel_pose d a).trans hsel)
        simp [update, hsel, hother, hpose, hideFrom_cons, ih]
    | false =>
      have hkept : R.sel (if j = 0 ∧ R'.sel a = true then R'.hide a else a) = false := by
        split
        · rename_i hhidden
          exact h.symm _ ((R'.sel_hide a).trans hhidden.2)
        · exact hsel
      cases ds <;> simp [update, hsel, hkept, hideFrom_cons, ih]

theorem countP_hideFrom (h : R.Disjoint R') (j : Nat) (roster : List Entry) :
    (R'.hideFrom j roster).countP R.sel = roster.countP R.sel := by
  induction roster generalizing j with
  | nil => rfl
  | cons a roster ih =>
    have hsel : R.sel (if j = 0 ∧ R'.sel a = true then R'.hide a else a) = R.sel a := by
      split
      · rename_i hhidden
        rw [h.symm _ hhidden.2, h.symm _ ((R'.sel_hide a).trans hhidden.2)]
      · rfl
    rw [hideFrom_cons, List.countP_cons, List.countP_cons, ih, hsel]

theorem follow_hideFrom (h : R.Disjoint R') (j made : Nat) (roster : List Entry) (ds : List Obs) :
    R.follow made (R'.hideFrom j roster) ds = R'.hideFrom j (R.follow made roster ds) := by
  have hnew (k : Nat) : ∀ a ∈ R.newcomers made (ds.drop k), R'.sel a = false :=
    fun a ha => h a (sel_newcomers ha)
  rw [follow, update_hideFrom h, countP_hideFrom h, follow, hideFrom_append,
    hideFrom_of_not_sel (hnew _)]

theorem hideFrom_comm (h : R.Disjoint R') (j k : Nat) (roster : List Entry) :
    R.hideFrom j (R'.hideFrom k roster) = R'.hideFrom k (R.hideFrom j roster) := by
  induction roster generalizing j k with
  | nil => rfl
  | cons a roster ih =>
    simp only [hideFrom_cons, ih]
    congr 1
    cases hsel : R.sel a with
    | true =>
      have hother := h a hsel
      have hhide : R'.sel (R.hide a) = false := h _ ((R.sel_hide a).trans hsel)
      by_cases hj : j = 0 <;> simp [hsel, hother, hhide, hj]
    | false =>
      by_cases hhidden : k = 0 ∧ R'.sel a = true
      · have hhide : R.sel (R'.hide a) = false := h.symm _ ((R'.sel_hide a).trans hhidden.2)
        simp [hhidden, hhide]
      · simp [hsel, hhidden]

-- ---------------------------------------------------------------------------
-- What a roster looks like after it followed
-- ---------------------------------------------------------------------------

theorem filter_update (roster : List Entry) (ds : List Obs) :
    (R.update roster ds).filter R.sel =
      List.zipWith R.pose ds (roster.filter R.sel) ++
        ((roster.filter R.sel).drop ds.length).map R.hide := by
  induction roster generalizing ds with
  | nil => cases ds <;> rfl
  | cons a roster ih =>
    cases hsel : R.sel a with
    | true => cases ds <;> simp [update, hsel, R.sel_hide, R.sel_pose, ih]
    | false => cases ds <;> simp [update, hsel, ih]

theorem filter_follow (made : Nat) (roster : List Entry) (ds : List Obs) :
    (R.follow made roster ds).filter R.sel =
      List.zipWith R.pose ds (roster.filter R.sel) ++
        ((roster.filter R.sel).drop ds.length).map R.hide ++
        R.newcomers made (ds.drop (roster.filter R.sel).length) := by
  have hnew (k : Nat) : (R.newcomers made (ds.drop k)).filter R.sel = R.newcomers made (ds.drop k) :=
    List.filter_eq_self.mpr fun a ha => sel_newcomers ha
  rw [follow, List.filter_append, hnew, List.countP_eq_length_filter, filter_update]

theorem filter_update_of_disjoint (h : R.Disjoint R') (roster : List Entry) (ds : List Obs) :
    (R.update roster ds).filter R'.sel = roster.filter R'.sel := by
  induction roster generalizing ds with
  | nil => rfl
  | cons a roster ih =>
    cases hsel : R.sel a with
    | true =>
      have hother := h a hsel
      cases ds with
      | nil => simp [update, hsel, hother, h _ ((R.sel_hide a).trans hsel), ih]
      | cons d ds => simp [update, hsel, hother, h _ ((R.sel_pose d a).trans hsel), ih]
    | false => cases ds <;> simp [update, hsel, List.filter_cons, ih]

theorem filter_follow_of_disjoint (h : R.Disjoint R') (made : Nat) (roster : List Entry)
    (ds : List Obs) : (R.follow made roster ds).filter R'.sel = roster.filter R'.sel := by
  have hnew (k : Nat) : (R.newcomers made (ds.drop k)).filter R'.sel = [] :=
    List.filter_eq_nil_iff.mpr fun a ha => by simp [h a (sel_newcomers ha)]
  rw [follow, List.filter_append, hnew, List.append_nil, filter_update_of_disjoint h]

@[simp] theorem length_update (roster : List Entry) (ds : List Obs) :
    (R.update roster ds).length = roster.length := by
  induction roster generalizing ds with
  | nil => rfl
  | cons a roster ih =>
    cases hsel : R.sel a <;> cases ds <;> simp [update, hsel, ih]

theorem getElem?_follow_of_not_sel {i : Nat} {a : Entry} (hi : roster[i]? = some a)
    (ha : R.sel a = false) (made : Nat) (ds : List Obs) :
    (R.follow made roster ds)[i]? = some a := by
  have hlt := (List.getElem?_eq_some_iff.mp hi).1
  rw [follow, List.getElem?_append_left (by rwa [length_update])]
  clear hlt
  induction roster generalizing i ds with
  | nil => cases hi
  | cons b roster ih =>
    cases i with
    | zero =>
      obtain rfl : b = a := Option.some.inj hi
      cases ds <;> simp [update, ha]
    | succ i =>
      have ih := ih hi
      cases hsel : R.sel b <;> cases ds <;> simp [update, hsel, ih]

theorem sel_of_length_le {i : Nat} {a : Entry} {made : Nat} (hi : roster.length ≤ i)
    (ha : (R.follow made roster ds)[i]? = some a) : R.sel a = true := by
  rw [follow, List.getElem?_append_right (by rwa [length_update])] at ha
  exact sel_newcomers (List.mem_of_getElem? ha)

theorem map_update {β : Type*} {f : Entry → β} (hpose : ∀ d a, f (R.pose d a) = f a)
    (hhide : ∀ a, f (R.hide a) = f a) (roster : List Entry) (ds : List Obs) :
    (R.update roster ds).map f = roster.map f := by
  induction roster generalizing ds with
  | nil => rfl
  | cons a roster ih =>
    cases hsel : R.sel a <;> cases ds <;> simp [update, hsel, hpose, hhide, ih]

theorem map_prefix_follow {β : Type*} {f : Entry → β} (hpose : ∀ d a, f (R.pose d a) = f a)
    (hhide : ∀ a, f (R.hide a) = f a) (made : Nat) (roster : List Entry) (ds : List Obs) :
    roster.map f <+: (R.follow made roster ds).map f := by
  rw [follow, List.map_append, map_update hpose hhide]
  exact List.prefix_append _ _

end Rules

end Roster
