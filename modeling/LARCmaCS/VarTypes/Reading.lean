import LARCmaCS.VarTypes.Tree

/-!
# Reading any XML

Reading comes to an end, into every tree of settings, unless the XML has a
setting with a type of which no node can be made (`exists_readChildren`). Such a
setting cannot be read into the empty tree (`allReadable_of_readChildren_nil`).
Of settings of type `external` nothing is said.
-/

namespace LARCmaCS.VarTypes

open Base64 (VarBlob)
open Xml (Byte XMLNode XMLContent str tcsicmp)

-- ---------------------------------------------------------------------------
-- Settings that can be read
-- ---------------------------------------------------------------------------

def VarTypeId.hasChildren : VarTypeId → Bool
  | .LIST => true
  | .STRINGENUM => true
  | .SELECTION => true
  | _ => false

/-- The factory does not return a null pointer. -/
def VarTypeId.isKnown : VarTypeId → Bool
  | .UNDEFINED => false
  | .VECTOR2D => false
  | .VECTOR3D => false
  | .TIMEVAR => false
  | .TIMELINE => false
  | _ => true

def VarTypeId.isInternal (type : VarTypeId) : Bool := type ≠ .EXTERNAL

/-- The factory returns a node of the trees. -/
def VarTypeId.hasNode (type : VarTypeId) : Bool := type.isKnown && type.isInternal

def typeOf (t : XMLNode) : VarTypeId := stringToType (fixString (t.getAttribute (str "type")))

mutual

/-- The types of what is read are among `p`. A setting without a type is passed over. -/
def Readable (p : VarTypeId → Bool) : XMLNode → Prop
  | ⟨name, isDeclaration, attributes, contents⟩ =>
    let type := typeOf ⟨name, isDeclaration, attributes, []⟩
    type = .UNDEFINED ∨ p type ∧ (type.hasChildren → AllReadable p contents)

def AllReadable (p : VarTypeId → Bool) : List XMLContent → Prop
  | [] => True
  | .child t :: cs => (tcsicmp t.lpszName (str "Var") → Readable p t) ∧ AllReadable p cs
  | .text _ :: cs => AllReadable p cs
  | .clear _ _ _ :: cs => AllReadable p cs

end

theorem readable_iff (p : VarTypeId → Bool) (t : XMLNode) : Readable p t ↔
    typeOf t = .UNDEFINED ∨ p (typeOf t) ∧ ((typeOf t).hasChildren → AllReadable p t.contents) := by
  cases t
  rfl

theorem readable_and {p q : VarTypeId → Bool} {t : XMLNode}
    (h : AllReadable (fun type => p type && q type) t.contents ↔
      AllReadable p t.contents ∧ AllReadable q t.contents) :
    Readable (fun type => p type && q type) t ↔ Readable p t ∧ Readable q t := by
  simp only [readable_iff, h, Bool.and_eq_true]
  tauto

theorem allReadable_and {p q : VarTypeId → Bool} {cs : List XMLContent} :
    AllReadable (fun type => p type && q type) cs ↔ AllReadable p cs ∧ AllReadable q cs := by
  induction cs using Xml.contents_induction with
  | nil => simp [AllReadable]
  | text value cs ih => exact ih
  | clear openTag value closeTag cs ih => exact ih
  | child t cs iht ih =>
    simp only [AllReadable, readable_and iht, ih]
    tauto

theorem exists_newVarType_of_hasNode (Double : Type) [Number Double] {type : VarTypeId}
    (h : type.hasNode) :
    ∃ (flags : VarTypeFlag) (value : VarValue Double),
      newVarType type = .node ⟨[], flags, value⟩ ∧
        (flags = 0 ∨ flags = VARTYPE_FLAG_PERSISTENT) ∧ value.getType = type ∧
        value.getChildren = [] := by
  cases type <;> first
    | exact ⟨_, _, rfl, .inl rfl, rfl, rfl⟩
    | exact ⟨_, _, rfl, .inr rfl, rfl, rfl⟩
    | cases h

theorem newVarType_of_not_hasNode (Double : Type) [Number Double] {type : VarTypeId}
    (h : ¬type.hasNode) : (newVarType type : NewVarType Double).node? = none := by
  cases type <;> first | rfl | exact absurd rfl h

variable {Double : Type} [DecidableEq Double] [Number Double]

theorem exists_setSerialString_blob (data val : List Byte) :
    ∃ blob, VarBlob.setSerialString ⟨data⟩ val = some blob ∧ blob.data.length = data.length := by
  have hend : (0 : Byte) ∈ val ++ [0] := by simp
  obtain ⟨r, hr, hlength, -⟩ : Base64.Safe data.length data (Base64.decode val data data.length) :=
    Base64.decodeFrom_safe hend (by simp) (by simp) (Int.le_refl _)
  exact ⟨⟨r.buf⟩, by rw [VarBlob.setSerialString, hr]; rfl, hlength⟩

-- ---------------------------------------------------------------------------
-- What can be read comes to an end
-- ---------------------------------------------------------------------------

theorem exists_readText (flags : VarTypeFlag) (us : XMLNode) (value : VarValue Double) :
    ∃ value', value.readText flags us = some value' ∧ value'.getType = value.getType ∧
      value'.getChildren = value.getChildren := by
  have hset (value : VarValue Double) (val : List Byte) :
      ∃ value', value.setSerialString val = some value' ∧ value'.getType = value.getType ∧
        value'.getChildren = value.getChildren := by
    cases value with
    | blob data =>
      obtain ⟨blob, hblob, -⟩ := exists_setSerialString_blob data val
      exact ⟨.blob blob.data, by rw [VarValue.setSerialString, hblob]; rfl, rfl, rfl⟩
    | _ => exact ⟨_, rfl, rfl, rfl⟩
  have hattributes : (value.readAttributes us).getType = value.getType ∧
      (value.readAttributes us).getChildren = value.getChildren := by
    cases value <;> exact ⟨rfl, rfl⟩
  rw [VarValue.readText]
  split
  · exact hset _ _
  · rw [← hattributes.1, ← hattributes.2]
    exact hset _ _

theorem readXML_eq (us : XMLNode) (v : VarType Double) : readXML us v =
    if areFlagsSet v.flags VARTYPE_FLAG_NOLOAD then some v
    else (v.value.readText v.flags us).bind fun value =>
      (value.readChildren v.flags (readChildren us.contents)).bind fun value =>
        some { v with value := value } := by
  cases us
  rfl

theorem exists_readXML {t : XMLNode} {v : VarType Double}
    (h : v.getType.hasChildren → ∀ c : Children Double, ∃ c', readChildren t.contents c = some c') :
    ∃ v', readXML t v = some v' := by
  obtain ⟨value, htext, htype, -⟩ := exists_readText v.flags t v.value
  have hchildren : ∃ value', value.readChildren v.flags (readChildren t.contents) = some value' := by
    rw [VarType.getType, ← htype] at h
    cases value with
    | list children =>
      obtain ⟨c, hc⟩ := h rfl ⟨children, []⟩
      exact ⟨_, by rw [VarValue.readChildren, hc]; rfl⟩
    | stringenum selected children =>
      obtain ⟨c, hc⟩ := h rfl ⟨children, []⟩
      rw [VarValue.readChildren, hc]
      split <;> exact ⟨_, rfl⟩
    | selection children =>
      obtain ⟨c, hc⟩ := h rfl ⟨children, []⟩
      rw [VarValue.readChildren, hc]
      split <;> exact ⟨_, rfl⟩
    | _ => exact ⟨_, rfl⟩
  obtain ⟨value', hvalue'⟩ := hchildren
  rw [readXML_eq, htext, Option.bind_some, hvalue']
  split <;> exact ⟨_, rfl⟩

theorem exists_readChild {t : XMLNode} (ht : Readable VarTypeId.hasNode t)
    (h : AllReadable VarTypeId.hasNode t.contents →
      ∀ c : Children Double, ∃ c', readChildren t.contents c = some c')
    (c : Children Double) : ∃ c', c.readChild t (readXML t) = some c' := by
  rw [readable_iff] at ht
  rw [Children.readChild]
  change ∃ c', (if typeOf t = .UNDEFINED then _ else _) = some c'
  split
  · exact ⟨c, rfl⟩
  · next hdefined =>
    obtain ⟨hknown, hcontents⟩ := ht.resolve_left hdefined
    have hread {v : VarType Double} (hv : v.getType = typeOf t) : ∃ v', readXML t v = some v' :=
      exists_readXML fun hchildren => h (hcontents (hv ▸ hchildren))
    split
    · next j hj =>
      split
      · next v hv =>
        split
        · next htype =>
          obtain ⟨v', hv'⟩ := hread htype
          exact ⟨_, by rw [hv']; rfl⟩
        · exact ⟨c, rfl⟩
      · exact ⟨c, rfl⟩
    · obtain ⟨flags, value, hnew, -, htype, -⟩ := exists_newVarType_of_hasNode Double hknown
      obtain ⟨v', hv'⟩ := @hread ⟨fixString (t.getAttribute (str "name")), flags, value⟩ htype
      refine ⟨{ c with new := c.new ++ [v'] }, ?_⟩
      change (newVarType (typeOf t)).node? >>= _ = _
      rw [hnew]
      exact congrArg (fun o => o >>= _) hv'

theorem exists_readChildren {cs : List XMLContent} (h : AllReadable VarTypeId.hasNode cs)
    (c : Children Double) : ∃ c', readChildren cs c = some c' := by
  induction cs using Xml.contents_induction generalizing c with
  | nil => exact ⟨c, rfl⟩
  | text value cs ih => exact ih h c
  | clear openTag value closeTag cs ih => exact ih h c
  | child t cs iht ih =>
    rw [readChildren]
    split
    · next hvar =>
      obtain ⟨c', hc'⟩ := exists_readChild (h.1 hvar) iht c
      rw [hc']
      exact ih h.2 c'
    · exact ih h.2 c

-- ---------------------------------------------------------------------------
-- What cannot be read
-- ---------------------------------------------------------------------------

theorem newFlags_spec {flags : VarTypeFlag} (h : flags = 0 ∨ flags = VARTYPE_FLAG_PERSISTENT) :
    ¬areFlagsSet flags VARTYPE_FLAG_NOLOAD ∧
      ¬areFlagsSet flags VARTYPE_FLAG_NOLOAD_ENUM_CHILDREN := by
  obtain rfl | rfl := h <;> decide

omit [DecidableEq Double] [Number Double] in
theorem exists_of_readChildren_new {flags : VarTypeFlag}
    (hflags : ¬areFlagsSet flags VARTYPE_FLAG_NOLOAD_ENUM_CHILDREN) {value value' : VarValue Double}
    (hchildren : value.getChildren = []) {read : Children Double → Option (Children Double)}
    (h : value.readChildren flags read = some value') (htype : value.getType.hasChildren) :
    ∃ c, read ⟨[], []⟩ = some c := by
  cases value with
  | list children =>
    obtain rfl : children = [] := hchildren
    obtain ⟨c, hc, -⟩ := Option.map_eq_some_iff.mp h
    exact ⟨c, hc⟩
  | stringenum selected children =>
    obtain rfl : children = [] := hchildren
    rw [VarValue.readChildren, if_neg hflags] at h
    obtain ⟨c, hc, -⟩ := Option.map_eq_some_iff.mp h
    exact ⟨c, hc⟩
  | selection children =>
    obtain rfl : children = [] := hchildren
    rw [VarValue.readChildren, if_neg hflags] at h
    obtain ⟨c, hc, -⟩ := Option.map_eq_some_iff.mp h
    exact ⟨c, hc⟩
  | _ => cases htype

theorem exists_of_readXML_new {t : XMLNode} {v v' : VarType Double}
    (hflags : v.flags = 0 ∨ v.flags = VARTYPE_FLAG_PERSISTENT) (hchildren : v.getChildren = [])
    (h : readXML t v = some v') (htype : v.getType.hasChildren) :
    ∃ c : Children Double, readChildren t.contents ⟨[], []⟩ = some c := by
  obtain ⟨hload, henum⟩ := newFlags_spec hflags
  obtain ⟨value, htext, hvalueType, hvalue⟩ := exists_readText v.flags t v.value
  rw [readXML_eq, if_neg hload, htext, Option.bind_some] at h
  obtain ⟨value', hvalue', -⟩ := Option.bind_eq_some_iff.mp h
  exact exists_of_readChildren_new henum (hvalue.trans hchildren) hvalue' (hvalueType ▸ htype)

theorem readable_of_readChild_nil {t : XMLNode} {new : List (VarType Double)} {c : Children Double}
    (ht : ∀ c : Children Double, readChildren t.contents ⟨[], []⟩ = some c →
      AllReadable VarTypeId.hasNode t.contents)
    (h : Children.readChild ⟨[], new⟩ t (readXML t) = some c) :
    Readable VarTypeId.hasNode t ∧ c.existing = [] := by
  rw [readable_iff]
  rw [Children.readChild] at h
  change (if typeOf t = .UNDEFINED then _ else _) = some c at h
  split at h
  · next hundefined => exact ⟨.inl hundefined, by rw [← Option.some.inj h]⟩
  · simp only [List.findIdx?_nil, ite_self] at h
    obtain ⟨td, hnew, h⟩ := Option.bind_eq_some_iff.mp h
    obtain ⟨td', hread, h⟩ := Option.bind_eq_some_iff.mp h
    replace hnew : (newVarType (typeOf t)).node? = some td := hnew
    have hknown : (typeOf t).hasNode := by
      by_contra hunknown
      rw [newVarType_of_not_hasNode Double hunknown] at hnew
      cases hnew
    refine ⟨.inr ⟨hknown, fun hchildren => ?_⟩, by rw [← Option.some.inj h]⟩
    obtain ⟨flags, value, hknownNew, hflags, htype, hvalue⟩ := exists_newVarType_of_hasNode Double hknown
    rw [hknownNew] at hnew
    obtain rfl := Option.some.inj hnew
    rw [← htype] at hchildren
    have hchild : ∃ c', readChildren t.contents ⟨[], []⟩ = some c' :=
      @exists_of_readXML_new _ _ _ t ⟨_, flags, value⟩ td' hflags hvalue hread hchildren
    obtain ⟨c', hc'⟩ := hchild
    exact ht c' hc'

theorem allReadable_of_readChildren_nil {cs : List XMLContent} {new : List (VarType Double)}
    {c : Children Double} (h : readChildren cs ⟨[], new⟩ = some c) :
    AllReadable VarTypeId.hasNode cs := by
  induction cs using Xml.contents_induction generalizing new c with
  | nil => trivial
  | text value cs ih => exact ih h
  | clear openTag value closeTag cs ih => exact ih h
  | child t cs iht ih =>
    rw [readChildren] at h
    split at h
    · obtain ⟨⟨existing, new'⟩, hchild, hrest⟩ := Option.bind_eq_some_iff.mp h
      obtain ⟨ht, rfl⟩ := readable_of_readChild_nil (fun c hc => iht hc) hchild
      exact ⟨fun _ => ht, ih hrest⟩
    · next hvar => exact ⟨fun htag => absurd htag hvar, ih h⟩

end LARCmaCS.VarTypes
