import LARCmaCS.VarTypes.Reading

/-!
# What reading keeps

Whatever is read into a tree of settings, no node loses its place, its name or
its type, nor what its flags protect (`allKept_readChildren`).
-/

namespace LARCmaCS.VarTypes

open Xml (Byte XMLNode XMLContent str tcsicmp)

/-- A node that has been hidden is otherwise as it was. -/
def SameFlags (flags flags' : VarTypeFlag) : Prop :=
  flags' = flags ∨ flags' = flags ||| VARTYPE_FLAG_HIDDEN

theorem SameFlags.trans {f g h : VarTypeFlag} (hfg : SameFlags f g) (hgh : SameFlags g h) :
    SameFlags f h := by
  obtain rfl | rfl := hfg
  · exact hgh
  · obtain rfl | rfl := hgh
    · exact .inr rfl
    · exact .inr (by rw [BitVec.or_assoc, BitVec.or_self])

theorem SameFlags.areFlagsSet_eq {flags flags' f : VarTypeFlag} (h : SameFlags flags flags')
    (hf : VARTYPE_FLAG_HIDDEN &&& f = 0#32) : areFlagsSet flags' f = areFlagsSet flags f := by
  obtain rfl | rfl := h
  · rfl
  · rw [areFlagsSet, BitVec.and_or_distrib_right, hf, BitVec.or_zero, areFlagsSet]

namespace Ranged

def KeepsBounds {α : Type} (flags : VarTypeFlag) (r r' : Ranged α) : Prop :=
  areFlagsSet flags VARTYPE_FLAG_NOLOAD_ATTRIBUTES → r'.min = r.min ∧ r'.max = r.max

theorem KeepsBounds.trans {α : Type} {flags flags' : VarTypeFlag} {r s t : Ranged α}
    (hflags : SameFlags flags flags') (hrs : r.KeepsBounds flags s) (hst : s.KeepsBounds flags' t) :
    r.KeepsBounds flags t := by
  intro h
  rw [KeepsBounds, hflags.areFlagsSet_eq (by decide)] at hst
  exact ⟨(hst h).1.trans (hrs h).1, (hst h).2.trans (hrs h).2⟩

/-- As far as there is a number between the bounds. -/
def Within (r : Ranged (BitVec 32)) : Prop :=
  r.min.toInt ≤ r.max.toInt → r.min.toInt ≤ r.val.toInt ∧ r.val.toInt ≤ r.max.toInt

theorem within_set (r : Ranged (BitVec 32)) (val : BitVec 32) : (r.set val).Within := by
  intro h
  change r.min.toInt ≤ r.max.toInt at h
  change r.min.toInt ≤ (r.set val).val.toInt ∧ (r.set val).val.toInt ≤ r.max.toInt
  unfold set
  split_ifs with hlow hhigh
  · exact ⟨le_refl _, h⟩
  · exact ⟨h, le_refl _⟩
  · have hlow' : r.min.toInt ≤ val.toInt := by
      by_cases hmin : r.min = INT_MIN
      · rw [hmin]
        exact BitVec.le_toInt val
      · by_contra hlt
        exact hlow (Bool.and_eq_true_iff.mpr
          ⟨decide_eq_true hmin, BitVec.slt_iff_toInt_lt.mpr (not_le.mp hlt)⟩)
    have hhigh' : val.toInt ≤ r.max.toInt := by
      by_cases hmax : r.max = INT_MAX
      · rw [hmax]
        exact BitVec.toInt_le
      · by_contra hlt
        exact hhigh (Bool.and_eq_true_iff.mpr
          ⟨decide_eq_true hmax, BitVec.slt_iff_toInt_lt.mpr (not_le.mp hlt)⟩)
    exact ⟨hlow', hhigh'⟩

end Ranged

section

variable {Double : Type}

mutual

/-- What can become of a node that is read into. -/
inductive VarType.Keeps : VarType Double → VarType Double → Prop where
  | noload {name flags flags' value} (hflags : SameFlags flags flags')
      (h : areFlagsSet flags VARTYPE_FLAG_NOLOAD) :
      VarType.Keeps ⟨name, flags, value⟩ ⟨name, flags', value⟩
  | load {name flags flags' value value'} (hflags : SameFlags flags flags')
      (h : ¬areFlagsSet flags VARTYPE_FLAG_NOLOAD) (hvalue : VarValue.Keeps flags value value') :
      VarType.Keeps ⟨name, flags, value⟩ ⟨name, flags', value'⟩

inductive VarValue.Keeps : VarTypeFlag → VarValue Double → VarValue Double → Prop where
  | bool {flags a b} : VarValue.Keeps flags (.bool a) (.bool b)
  | int {flags r r'} (hbounds : r.KeepsBounds flags r') (h : r' = r ∨ r'.Within) :
      VarValue.Keeps flags (.int r) (.int r')
  | double {flags r r'} (hbounds : r.KeepsBounds flags r') : VarValue.Keeps flags (.double r) (.double r')
  | string {flags a b} : VarValue.Keeps flags (.string a) (.string b)
  | blob {flags a b} (h : b.length = a.length) : VarValue.Keeps flags (.blob a) (.blob b)
  | list {flags vs ws} (h : AllKept vs ws) : VarValue.Keeps flags (.list vs) (.list ws)
  | stringenum {flags a b vs ws} (h : AllKept vs ws)
      (hkeep : areFlagsSet flags VARTYPE_FLAG_NOLOAD_ENUM_CHILDREN → ws = vs) :
      VarValue.Keeps flags (.stringenum a vs) (.stringenum b ws)
  | selection {flags vs ws} (h : AllKept vs ws)
      (hkeep : areFlagsSet flags VARTYPE_FLAG_NOLOAD_ENUM_CHILDREN → ws = vs) :
      VarValue.Keeps flags (.selection vs) (.selection ws)
  | trigger {flags} : VarValue.Keeps flags .trigger .trigger
  | qwidget {flags} : VarValue.Keeps flags .qwidget .qwidget

/-- The nodes stand at the beginning of the new ones, in their order. -/
inductive AllKept : List (VarType Double) → List (VarType Double) → Prop where
  | nil {ws} : AllKept [] ws
  | cons {v w vs ws} (h : VarType.Keeps v w) (hs : AllKept vs ws) : AllKept (v :: vs) (w :: ws)

end

variable {vs ws : List (VarType Double)}

theorem VarValue.Keeps.refl_of {value : VarValue Double}
    (h : AllKept value.getChildren value.getChildren) (flags : VarTypeFlag) :
    VarValue.Keeps flags value value := by
  cases value with
  | bool val => exact .bool
  | int r => exact .int (fun _ => ⟨rfl, rfl⟩) (.inl rfl)
  | double r => exact .double fun _ => ⟨rfl, rfl⟩
  | string val => exact .string
  | blob data => exact .blob rfl
  | list children => exact .list h
  | stringenum selected children => exact .stringenum h fun _ => rfl
  | selection children => exact .selection h fun _ => rfl
  | trigger => exact .trigger
  | qwidget => exact .qwidget

theorem VarType.Keeps.flags_of {v : VarType Double} (h : AllKept v.getChildren v.getChildren)
    {flags : VarTypeFlag} (hflags : SameFlags v.flags flags) :
    v.Keeps { v with flags := flags } := by
  obtain ⟨name, flags', value⟩ := v
  by_cases hload : areFlagsSet flags' VARTYPE_FLAG_NOLOAD
  · exact .noload hflags hload
  · exact .load hflags hload (.refl_of h _)

theorem VarType.Keeps.refl_of {v : VarType Double} (h : AllKept v.getChildren v.getChildren) :
    v.Keeps v := by
  have hkeeps := VarType.Keeps.flags_of h (.inl rfl)
  cases v
  exact hkeeps

theorem AllKept.refl (vs : List (VarType Double)) : AllKept vs vs := by
  induction vs using vars_induction with
  | nil => exact .nil
  | cons v vs ihchildren ih => exact .cons (.refl_of ihchildren) ih

theorem AllKept.hide (vs : List (VarType Double)) : AllKept vs (hide vs) := by
  induction vs with
  | nil => exact .nil
  | cons v vs ih => exact .cons (.flags_of (.refl _) (.inr rfl)) ih

theorem VarValue.Keeps.trans_of {flags flags' : VarTypeFlag} (hflags : SameFlags flags flags')
    {u v w : VarValue Double} (huv : VarValue.Keeps flags u v) (hvw : VarValue.Keeps flags' v w)
    (hchildren : ∀ {vs ws}, AllKept u.getChildren vs → AllKept vs ws → AllKept u.getChildren ws) :
    VarValue.Keeps flags u w := by
  have henum := @SameFlags.areFlagsSet_eq _ _ VARTYPE_FLAG_NOLOAD_ENUM_CHILDREN hflags (by decide)
  cases huv with
  | bool =>
    cases hvw with
    | bool => exact .bool
  | int hbounds h =>
    cases hvw with
    | int hbounds' h' =>
      refine .int (hbounds.trans hflags hbounds') ?_
      obtain rfl | hwithin := h'
      · exact h
      · exact .inr hwithin
  | double hbounds =>
    cases hvw with
    | double hbounds' => exact .double (hbounds.trans hflags hbounds')
  | string =>
    cases hvw with
    | string => exact .string
  | blob h =>
    cases hvw with
    | blob h' => exact .blob (h'.trans h)
  | list h =>
    cases hvw with
    | list h' => exact .list (hchildren h h')
  | stringenum h hkeep =>
    cases hvw with
    | stringenum h' hkeep' =>
      exact .stringenum (hchildren h h') fun hset => (hkeep' (henum ▸ hset)).trans (hkeep hset)
  | selection h hkeep =>
    cases hvw with
    | selection h' hkeep' =>
      exact .selection (hchildren h h') fun hset => (hkeep' (henum ▸ hset)).trans (hkeep hset)
  | trigger =>
    cases hvw with
    | trigger => exact .trigger
  | qwidget =>
    cases hvw with
    | qwidget => exact .qwidget

theorem VarType.Keeps.trans_of {u v w : VarType Double} (huv : u.Keeps v) (hvw : v.Keeps w)
    (hchildren : ∀ {vs ws}, AllKept u.getChildren vs → AllKept vs ws → AllKept u.getChildren ws) :
    u.Keeps w := by
  cases huv with
  | noload hflags h =>
    cases hvw with
    | noload hflags' h' => exact .noload (hflags.trans hflags') h
    | load hflags' h' hvalue =>
      rw [hflags.areFlagsSet_eq (by decide)] at h'
      exact absurd h h'
  | load hflags h hvalue =>
    cases hvw with
    | noload hflags' h' =>
      rw [hflags.areFlagsSet_eq (by decide)] at h'
      exact absurd h' h
    | load hflags' h' hvalue' =>
      exact .load (hflags.trans hflags') h (hvalue.trans_of hflags hvalue' hchildren)

theorem AllKept.trans {us : List (VarType Double)} (huv : AllKept us vs) (hvw : AllKept vs ws) :
    AllKept us ws := by
  induction us using vars_induction generalizing vs ws with
  | nil => exact .nil
  | cons u us ihchildren ih =>
    cases huv with
    | cons hu hus =>
      cases hvw with
      | cons hv hvs => exact .cons (hu.trans_of hv ihchildren) (ih hus hvs)

theorem AllKept.append (h : AllKept vs ws) (new : List (VarType Double)) : AllKept vs (ws ++ new) := by
  induction vs generalizing ws with
  | nil => exact .nil
  | cons v vs ih =>
    cases h with
    | cons hv hvs => exact .cons hv (ih hvs)

theorem AllKept.set {j : Nat} {v w : VarType Double} (hj : vs[j]? = some v) (h : v.Keeps w) :
    AllKept vs (vs.set j w) := by
  induction vs generalizing j with
  | nil => exact .nil
  | cons u vs ih =>
    cases j with
    | zero =>
      obtain rfl : u = v := by simpa using hj
      exact .cons h (.refl vs)
    | succ j => exact .cons (.refl_of (.refl _)) (ih hj)

end

variable {Double : Type} [DecidableEq Double] [Number Double]

section

variable {α : Type} [DecidableEq α] [Number α]

theorem Ranged.keepsBounds_readText (flags : VarTypeFlag) (r : Ranged α) (us : XMLNode) (val : α) :
    r.KeepsBounds flags
      ((if areFlagsSet flags VARTYPE_FLAG_NOLOAD_ATTRIBUTES then r else r.readAttributes us).set val) := by
  intro h
  rw [if_pos h]
  exact ⟨rfl, rfl⟩

end

theorem keeps_readText {flags : VarTypeFlag} {us : XMLNode} {value value' : VarValue Double}
    (h : value.readText flags us = some value') : VarValue.Keeps flags value value' := by
  rw [VarValue.readText] at h
  cases value with
  | int r =>
    simp only [VarValue.readAttributes, ← apply_ite VarValue.int] at h
    obtain rfl := Option.some.inj h
    exact .int (r.keepsBounds_readText flags us _) (.inr (Ranged.within_set _ _))
  | double r =>
    simp only [VarValue.readAttributes, ← apply_ite VarValue.double] at h
    obtain rfl := Option.some.inj h
    exact .double (r.keepsBounds_readText flags us _)
  | blob data =>
    simp only [VarValue.readAttributes, ite_self] at h
    obtain ⟨blob, hblob, hlength⟩ := exists_setSerialString_blob data (fixString us.getText)
    rw [VarValue.setSerialString, hblob] at h
    obtain rfl := Option.some.inj h
    exact .blob hlength
  | _ =>
    simp only [VarValue.readAttributes, ite_self] at h
    obtain rfl := Option.some.inj h
    first
      | exact .bool
      | exact .string
      | exact .list (.refl _)
      | exact .stringenum (.refl _) fun _ => rfl
      | exact .selection (.refl _) fun _ => rfl
      | exact .trigger
      | exact .qwidget

omit [DecidableEq Double] [Number Double] in
theorem keeps_readChildren {flags : VarTypeFlag} {read : Children Double → Option (Children Double)}
    (hread : ∀ c c', read c = some c' → AllKept c.existing c'.existing)
    {value value' : VarValue Double} (h : value.readChildren flags read = some value') :
    VarValue.Keeps flags value value' := by
  have hresult {vs : List (VarType Double)} {c} (hc : read ⟨vs, []⟩ = some c) : AllKept vs c.result :=
    (hread _ _ hc).append c.new
  cases value with
  | list children =>
    obtain ⟨c, hc, rfl⟩ := Option.map_eq_some_iff.mp h
    exact .list (hresult hc)
  | stringenum selected children =>
    rw [VarValue.readChildren] at h
    split at h
    · obtain rfl := Option.some.inj h
      exact .stringenum (.refl _) fun _ => rfl
    · next henum =>
      obtain ⟨c, hc, rfl⟩ := Option.map_eq_some_iff.mp h
      exact .stringenum ((hresult hc).trans (.hide _)) fun hset => absurd hset henum
  | selection children =>
    rw [VarValue.readChildren] at h
    split at h
    · obtain rfl := Option.some.inj h
      exact .selection (.refl _) fun _ => rfl
    · next henum =>
      obtain ⟨c, hc, rfl⟩ := Option.map_eq_some_iff.mp h
      exact .selection ((hresult hc).trans (.hide _)) fun hset => absurd hset henum
  | _ =>
    obtain rfl := Option.some.inj h
    exact .refl_of (.refl _) flags

theorem keeps_readXML {t : XMLNode}
    (ht : ∀ c c' : Children Double, readChildren t.contents c = some c' →
      AllKept c.existing c'.existing)
    {v v' : VarType Double} (h : readXML t v = some v') : v.Keeps v' := by
  obtain ⟨name, flags, value⟩ := v
  rw [readXML_eq] at h
  split at h
  · obtain rfl := Option.some.inj h
    exact .refl_of (.refl _)
  · next hload =>
    obtain ⟨value₁, htext, h⟩ := Option.bind_eq_some_iff.mp h
    obtain ⟨value₂, hchildren, h⟩ := Option.bind_eq_some_iff.mp h
    obtain rfl := Option.some.inj h
    exact .load (.inl rfl) hload
      ((keeps_readText htext).trans_of (.inl rfl) (keeps_readChildren ht hchildren) .trans)

omit [DecidableEq Double] in
theorem allKept_readChild {c c' : Children Double} {t : XMLNode}
    {read : VarType Double → Option (VarType Double)} (hread : ∀ v v', read v = some v' → v.Keeps v')
    (h : c.readChild t read = some c') : AllKept c.existing c'.existing := by
  rw [Children.readChild] at h
  split at h
  · obtain rfl := Option.some.inj h
    exact .refl _
  · split at h
    · split at h
      · next v hv =>
        split at h
        · obtain ⟨v', hv', rfl⟩ := Option.map_eq_some_iff.mp h
          exact .set hv (hread v v' hv')
        · obtain rfl := Option.some.inj h
          exact .refl _
      · obtain rfl := Option.some.inj h
        exact .refl _
    · obtain ⟨td, -, h⟩ := Option.bind_eq_some_iff.mp h
      obtain ⟨td', -, h⟩ := Option.bind_eq_some_iff.mp h
      obtain rfl := Option.some.inj h
      exact .refl _

theorem allKept_readChildren {cs : List XMLContent} {c c' : Children Double}
    (h : readChildren cs c = some c') : AllKept c.existing c'.existing := by
  induction cs using Xml.contents_induction generalizing c c' with
  | nil =>
    obtain rfl := Option.some.inj h
    exact .refl _
  | text value cs ih => exact ih h
  | clear openTag value closeTag cs ih => exact ih h
  | child t cs iht ih =>
    rw [readChildren] at h
    split at h
    · obtain ⟨c₁, hchild, hrest⟩ := Option.bind_eq_some_iff.mp h
      have hkept := allKept_readChild (fun v v' => keeps_readXML fun c c' => iht) hchild
      exact hkept.trans (ih hrest)
    · exact ih h

end LARCmaCS.VarTypes
