import LARCmaCS.VarTypes.Restore

/-!
# Trees of one shape

A program builds its tree of settings and then reads the file of an earlier run
into it. `AllLoad` says when the nodes of the tree take the values of the saved
ones: then the two trees have the same settings, whatever the flags of their
nodes (`restoreAll_of_allLoad`).
-/

namespace LARCmaCS.VarTypes

open Xml (Byte trim)

section

variable {Double : Type}

mutual

def VarType.settings : VarType Double → VarType Double
  | ⟨name, _, value⟩ => ⟨name, 0, value.settings⟩

def VarValue.settings : VarValue Double → VarValue Double
  | .list children => .list (allSettings children)
  | .stringenum selected children => .stringenum selected (allSettings children)
  | .selection children => .selection (allSettings children)
  | value => value

def allSettings : List (VarType Double) → List (VarType Double)
  | [] => []
  | v :: vs => v.settings :: allSettings vs

end

theorem allSettings_hide (vs : List (VarType Double)) : allSettings (hide vs) = allSettings vs := by
  induction vs with
  | nil => rfl
  | cons v vs ih =>
    cases v
    exact congrArg (List.cons _) ih

end

variable {Double : Type} [DecidableEq Double] [Number Double]

/-- The flags of a node that let it take everything that has been saved. -/
structure LoadsAll (flags : VarTypeFlag) : Prop where
  load : ¬areFlagsSet flags VARTYPE_FLAG_NOLOAD
  attributes : ¬areFlagsSet flags VARTYPE_FLAG_NOLOAD_ATTRIBUTES
  children : ¬areFlagsSet flags VARTYPE_FLAG_NOLOAD_ENUM_CHILDREN

mutual

/-- The saved node has the name and the type of the other one, which can take
its value: numbers are within their bounds, texts without spaces around them,
blobs of the same size. -/
def VarType.Loads : (saved : VarType Double) → VarType Double → Prop
  | ⟨name, flags, value⟩, w =>
    ¬areFlagsSet flags VARTYPE_FLAG_NOSAVE ∧ w.name = name ∧ LoadsAll w.flags ∧ value.Loads w.value

def VarValue.Loads : (saved : VarValue Double) → VarValue Double → Prop
  | .bool _, .bool _ => True
  | .int r, .int _ => r.set r.val = r
  | .double r, .double _ => r.set r.val = r
  | .string val, .string _ => trim val = val
  | .blob data, .blob old => old.length = data.length
  | .list children, .list old => AllLoad children old
  | .stringenum selected children, .stringenum _ old => trim selected = selected ∧ AllLoad children old
  | .selection children, .selection old => AllLoad children old
  | .trigger, .trigger => True
  | .qwidget, .qwidget => True
  | _, _ => False

def AllLoad : (saved : List (VarType Double)) → List (VarType Double) → Prop
  | [], [] => True
  | v :: vs, w :: ws => v.name ≠ [] ∧ (∀ x ∈ vs, x.name ≠ v.name) ∧ v.Loads w ∧ AllLoad vs ws
  | _, _ => False

end

theorem VarValue.Loads.getType {value old : VarValue Double} (h : value.Loads old) :
    old.getType = value.getType := by
  cases value <;> cases old <;> first | rfl | exact h.elim

omit [DecidableEq Double] in
theorem restoreChild_of_name {done ws new : List (VarType Double)} {w : VarType Double}
    {name : List Byte} (hne : name ≠ []) (hname : w.name = name) (hdone : ∀ d ∈ done, d.name ≠ name)
    (restore : VarType Double → VarType Double) :
    Children.restoreChild ⟨done ++ w :: ws, new⟩ name w.getType restore =
      ⟨done ++ restore w :: ws, new⟩ := by
  have hfind : (done ++ w :: ws).findIdx? (fun v => v.name = name) = some done.length := by
    rw [List.findIdx?_append, List.findIdx?_eq_none_iff.mpr (by simpa using hdone),
      List.findIdx?_cons]
    simp [hname]
  have hget : (done ++ w :: ws)[done.length]? = some w := by simp
  rw [Children.restoreChild, if_neg hne, hfind]
  simp [modify_eq_set hget]

theorem settings_restoreValue {flags : VarTypeFlag} (hflags : LoadsAll flags)
    {value old : VarValue Double} (h : value.Loads old)
    (hchildren : ∀ ws, AllLoad value.getChildren ws →
      ∃ us, restoreAll value.getChildren ⟨ws, []⟩ = ⟨us, []⟩ ∧
        allSettings us = allSettings value.getChildren) :
    (value.restoreChildren flags (value.restoreText flags old)).settings = value.settings := by
  have hattributes := hflags.attributes
  cases value with
  | int r =>
    cases old with
    | int old =>
      change VarValue.int ((if areFlagsSet flags VARTYPE_FLAG_NOLOAD_ATTRIBUTES then old else r).set
        r.val) = .int r
      rw [if_neg hattributes, h]
    | _ => exact h.elim
  | double r =>
    cases old with
    | double old =>
      change VarValue.double ((if areFlagsSet flags VARTYPE_FLAG_NOLOAD_ATTRIBUTES then old else r).set
        r.val) = .double r
      rw [if_neg hattributes, h]
    | _ => exact h.elim
  | string val =>
    cases old with
    | string _ => exact congrArg VarValue.string h
    | _ => exact h.elim
  | blob data =>
    cases old with
    | blob old =>
      have hover : overwrite data old = data := by
        rw [overwrite, h, List.take_length, ← h, List.drop_length, List.append_nil]
      exact congrArg VarValue.blob hover
    | _ => exact h.elim
  | list children =>
    cases old with
    | list ws =>
      obtain ⟨us, hrestore, hsettings⟩ := hchildren ws h
      change restoreAll children ⟨ws, []⟩ = ⟨us, []⟩ at hrestore
      change VarValue.list (allSettings (restoreAll children ⟨ws, []⟩).result) = _
      rw [hrestore, Children.result, List.append_nil, hsettings]
      rfl
    | _ => exact h.elim
  | stringenum selected children =>
    cases old with
    | stringenum _ ws =>
      obtain ⟨us, hrestore, hsettings⟩ := hchildren ws h.2
      change restoreAll children ⟨ws, []⟩ = ⟨us, []⟩ at hrestore
      rw [VarValue.restoreText, VarValue.restoreChildren, if_neg hflags.children, hrestore,
        Children.result, List.append_nil, VarValue.settings, allSettings_hide, hsettings, h.1]
      rfl
    | _ => exact h.elim
  | selection children =>
    cases old with
    | selection ws =>
      obtain ⟨us, hrestore, hsettings⟩ := hchildren ws h
      change restoreAll children ⟨ws, []⟩ = ⟨us, []⟩ at hrestore
      change (VarValue.restoreChildren (.selection children) flags (.selection ws)).settings = _
      rw [VarValue.restoreChildren, if_neg hflags.children, hrestore, Children.result,
        List.append_nil, VarValue.settings, allSettings_hide, hsettings]
      rfl
    | _ => exact h.elim
  | _ => cases old <;> first | rfl | exact h.elim

theorem restoreAll_append_of_allLoad {vs ws : List (VarType Double)} (h : AllLoad vs ws)
    (done : List (VarType Double)) (hdone : ∀ d ∈ done, ∀ v ∈ vs, d.name ≠ v.name) :
    ∃ us, restoreAll vs ⟨done ++ ws, []⟩ = ⟨done ++ us, []⟩ ∧ allSettings us = allSettings vs := by
  induction vs using vars_induction generalizing ws done with
  | nil =>
    cases ws with
    | nil => exact ⟨[], rfl, rfl⟩
    | cons w ws => exact h.elim
  | cons v vs ihchildren ih =>
    cases ws with
    | nil => exact h.elim
    | cons w ws =>
      obtain ⟨name, flags, value⟩ := v
      obtain ⟨hne, hdistinct, ⟨hsave, hname, hflags, hvalue⟩, hvs⟩ := h
      have hvalueSettings := settings_restoreValue hflags hvalue fun ws hws =>
        ihchildren hws [] (by simp)
      have hrestore : VarType.restore ⟨name, flags, value⟩ w =
          ⟨name, w.flags, value.restoreChildren w.flags (value.restoreText w.flags w.value)⟩ := by
        rw [VarType.restore, if_neg hflags.load, ← hname]
      have hnames : ∀ d ∈ done ++ [VarType.restore ⟨name, flags, value⟩ w], ∀ v ∈ vs,
          d.name ≠ v.name := by
        intro d hd v hv
        obtain hd | hd := List.mem_append.mp hd
        · exact hdone d hd v (by simp [hv])
        · rw [List.mem_singleton.mp hd, hrestore]
          exact (hdistinct v hv).symm
      obtain ⟨us, hrest, hus⟩ := ih hvs _ hnames
      have hchild : Children.restoreChild ⟨done ++ w :: ws, []⟩ name w.getType
          (VarType.restore ⟨name, flags, value⟩) = _ :=
        restoreChild_of_name hne hname (fun d hd => hdone d hd _ (by simp)) _
      rw [VarType.getType, hvalue.getType] at hchild
      refine ⟨VarType.restore ⟨name, flags, value⟩ w :: us, ?_, ?_⟩
      · rw [restoreAll, if_neg hsave]
        simp only [VarType.getType, hchild]
        simpa using hrest
      · rw [allSettings, allSettings, hus, hrestore]
        exact congrArg (fun value => VarType.mk name 0 value :: allSettings vs) hvalueSettings

/-- The tree gets every value that has been saved. -/
theorem restoreAll_of_allLoad {vs ws : List (VarType Double)} (h : AllLoad vs ws) :
    ∃ us, restoreAll vs ⟨ws, []⟩ = ⟨us, []⟩ ∧ allSettings us = allSettings vs :=
  restoreAll_append_of_allLoad h [] (by simp)

end LARCmaCS.VarTypes
