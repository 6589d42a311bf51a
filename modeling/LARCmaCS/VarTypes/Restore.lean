import LARCmaCS.VarTypes.Tree

/-!
# Restoring settings

What is left of a tree of settings when it has been written to XML and is read
into another tree (`restoreAll`), with no XML in between: a saved node gives its
value to the node with its name and type, or is appended. Reading what
`writeAll` has written does just that (`exists_written`).
-/

namespace LARCmaCS.VarTypes

open Base64 (VarBlob)
open Xml (Byte ByteTable Encoded XMLAttribute XMLNode XMLContent cString str tcsicmp trim)

section

variable {Double : Type}

theorem stringToType_typeToString (value : VarValue Double) :
    stringToType (typeToString value.getType) = value.getType := by
  cases value <;> rfl

end

variable {Double : Type} [Number Double]

theorem exists_newVarType (value : VarValue Double) :
    ∃ td : VarType Double, newVarType value.getType = .node td ∧ td.getType = value.getType := by
  cases value <;> exact ⟨_, rfl, rfl⟩

variable [DecidableEq Double]

-- ---------------------------------------------------------------------------
-- Without XML
-- ---------------------------------------------------------------------------

/-- A blob keeps its size. -/
def overwrite (data old : List Byte) : List Byte := data.take old.length ++ old.drop data.length

def Children.restoreChild (c : Children Double) (name : List Byte) (type : VarTypeId)
    (restore : VarType Double → VarType Double) : Children Double :=
  match if name = [] then none else c.existing.findIdx? fun v => v.name = name with
  | some j =>
    { c with existing := c.existing.modify j fun v => if v.getType = type then restore v else v }
  | none =>
    { c with
      new := c.new ++ (newVarType type).node?.toList.map fun td => restore { td with name := name } }

/-- What a value takes from a saved one of its type, but the children. -/
def VarValue.restoreText (flags : VarTypeFlag) : (saved : VarValue Double) → VarValue Double →
    VarValue Double
  | .bool val, .bool _ => .bool val
  | .int r, .int old =>
    .int ((if areFlagsSet flags VARTYPE_FLAG_NOLOAD_ATTRIBUTES then old else r).set r.val)
  | .double r, .double old =>
    .double ((if areFlagsSet flags VARTYPE_FLAG_NOLOAD_ATTRIBUTES then old else r).set r.val)
  | .string val, .string _ => .string (trim val)
  | .blob data, .blob old => .blob (overwrite data old)
  | .stringenum selected _, .stringenum _ old => .stringenum (trim selected) old
  | _, old => old

mutual

def VarType.restore : (saved : VarType Double) → VarType Double → VarType Double
  | ⟨_, _, value⟩, v =>
    if areFlagsSet v.flags VARTYPE_FLAG_NOLOAD then v
    else { v with value := value.restoreChildren v.flags (value.restoreText v.flags v.value) }

def VarValue.restoreChildren : (saved : VarValue Double) → VarTypeFlag → VarValue Double →
    VarValue Double
  | .list saved, _, .list old => .list (restoreAll saved ⟨old, []⟩).result
  | .stringenum _ saved, flags, .stringenum selected old =>
    if areFlagsSet flags VARTYPE_FLAG_NOLOAD_ENUM_CHILDREN then .stringenum selected old
    else .stringenum selected (hide (restoreAll saved ⟨old, []⟩).result)
  | .selection saved, flags, .selection old =>
    if areFlagsSet flags VARTYPE_FLAG_NOLOAD_ENUM_CHILDREN then .selection old
    else .selection (hide (restoreAll saved ⟨old, []⟩).result)
  | _, _, old => old

def restoreAll : (saved : List (VarType Double)) → Children Double → Children Double
  | [], c => c
  | v :: vs, c =>
    if areFlagsSet v.flags VARTYPE_FLAG_NOSAVE then restoreAll vs c
    else restoreAll vs (c.restoreChild v.name v.getType v.restore)

end

-- ---------------------------------------------------------------------------
-- Trees that can be saved
-- ---------------------------------------------------------------------------

/-- The bounds are written only where there are any. -/
structure Ranged.Printable {α : Type} [DecidableEq α] [Number α] (r : Ranged α) : Prop where
  val : VarTypes.Printable r.val
  min : r.hasMin → VarTypes.Printable r.min
  max : r.hasMax → VarTypes.Printable r.max

mutual

/-- Texts are UTF-8, numbers keep their value as text, and the text of a blob
is not too long for an `int`. -/
def VarType.Saveable : VarType Double → Prop
  | ⟨name, flags, value⟩ =>
    areFlagsSet flags VARTYPE_FLAG_NOSAVE ∨ Encoded .utf8 name ∧ value.Saveable

def VarValue.Saveable : VarValue Double → Prop
  | .double r => r.Printable
  | .string val => Encoded .utf8 val
  | .blob data => data.length ≤ 2 ^ 30
  | .list children => AllSaveable children
  | .stringenum selected children => Encoded .utf8 selected ∧ AllSaveable children
  | .selection children => AllSaveable children
  | _ => True

def AllSaveable : List (VarType Double) → Prop
  | [] => True
  | v :: vs => v.Saveable ∧ AllSaveable vs

end

-- ---------------------------------------------------------------------------
-- Texts
-- ---------------------------------------------------------------------------

theorem encoded_of_ascii {s : List Byte} (h : ∀ b ∈ s, b ≠ 0#8 ∧ b < 0x80#8) (t : ByteTable) :
    Encoded t s := by
  induction s with
  | nil => rfl
  | cons b s ih =>
    obtain ⟨h0, hlt⟩ := h b (by simp)
    refine Xml.encoded_cons.mpr ⟨h0, ?_⟩
    rw [t.len_of_lt h0 hlt]
    exact ih fun c hc => h c (by simp [hc])

theorem cString_of_encoded {t : ByteTable} {s : List Byte} (h : Encoded t s) : cString s = s :=
  Xml.cString_eq (Xml.nul_notMem_of_encoded h)

theorem trim_eq_self {s : List Byte} (h : ∀ b ∈ s, ¬Xml.isSPACECHAR b) : trim s = s := by
  have hdrop : s.dropWhile Xml.isSPACECHAR = s := by
    rw [List.dropWhile_eq_self_iff]
    exact fun hs => h _ (List.getElem_mem hs)
  rw [trim, hdrop, List.rdropWhile_eq_self_iff]
  exact fun hs => h _ (List.getLast_mem hs)

theorem exists_trim (s : List Byte) : ∃ w₁ w₂, s = w₁ ++ trim s ++ w₂ ∧
    (∀ b ∈ w₁, Xml.isSPACECHAR b) ∧ ∀ b ∈ w₂, Xml.isSPACECHAR b := by
  refine ⟨s.takeWhile Xml.isSPACECHAR,
    (s.dropWhile Xml.isSPACECHAR).rtakeWhile Xml.isSPACECHAR, ?_, fun b => List.mem_takeWhile_imp,
    fun b => List.mem_rtakeWhile_imp⟩
  rw [trim, List.append_assoc, List.rdropWhile_append_rtakeWhile, List.takeWhile_append_dropWhile]

theorem plainByte_spec : ∀ {b : Byte}, plainByte b →
    (b ≠ 0#8 ∧ b < 0x80#8) ∧ ¬Xml.isSPACECHAR b := by decide

section Numbers

variable {α : Type} [Number α]

theorem encoded_toText (t : ByteTable) (x : α) : Encoded t (Number.toText x) :=
  encoded_of_ascii (fun b hb => (plainByte_spec (Number.plainByte_toText x b hb)).1) t

theorem trim_toText (x : α) : trim (Number.toText x) = Number.toText x :=
  trim_eq_self fun b hb => (plainByte_spec (Number.plainByte_toText x b hb)).2

end Numbers

-- ---------------------------------------------------------------------------
-- Blobs
-- ---------------------------------------------------------------------------

set_option maxRecDepth 2000 in
theorem encodeTable_ascii : ∀ b ∈ Base64.base64EncodeTable, b ≠ 0#8 ∧ b < 0x80#8 := by decide

theorem letter_ascii {c : Byte} (h : c.toNat < 64) :
    Base64.letter c ≠ 0#8 ∧ Base64.letter c < 0x80#8 :=
  encodeTable_ascii _ (List.mem_of_getElem? (Base64.tables_of_lt h).1)

theorem text_ascii (formatted : Bool) (k : Nat) (bs : List Byte) :
    ∀ b ∈ Base64.text formatted k bs, b ≠ 0#8 ∧ b < 0x80#8 := by
  have hfill : Base64.base64Fillchar ≠ 0#8 ∧ Base64.base64Fillchar < 0x80#8 := by decide
  have hline : Base64.newline ≠ 0#8 ∧ Base64.newline < 0x80#8 := by decide
  induction k, bs using Base64.text.induct with
  | case1 k b0 b1 b2 bs ih =>
    intro b hb
    rw [Base64.text, List.mem_append, Base64.groupText, List.mem_append] at hb
    obtain (hb | hb) | hb := hb
    · simp only [List.mem_cons, List.not_mem_nil, or_false] at hb
      obtain rfl | rfl | rfl | rfl := hb
      · exact letter_ascii (Base64.code0_lt _)
      · exact letter_ascii (Base64.code1_lt _ _)
      · exact letter_ascii (Base64.code2_lt _ _)
      · exact letter_ascii (Base64.code3_lt _)
    · split at hb
      · rw [List.mem_singleton.mp hb]
        exact hline
      · cases hb
    · exact ih b hb
  | case2 k b0 b1 =>
    intro b hb
    simp only [Base64.text, List.mem_cons, List.not_mem_nil, or_false] at hb
    obtain rfl | rfl | rfl | rfl := hb
    · exact letter_ascii (Base64.code0_lt _)
    · exact letter_ascii (Base64.code1_lt _ _)
    · exact letter_ascii (Base64.code2_lt _ _)
    · exact hfill
  | case3 k b0 =>
    intro b hb
    simp only [Base64.text, List.mem_cons, List.not_mem_nil, or_false] at hb
    obtain rfl | rfl | rfl | rfl := hb
    · exact letter_ascii (Base64.code0_lt _)
    · exact letter_ascii (Base64.code1_lt _ _)
    · exact hfill
    · exact hfill
  | case4 k => simp [Base64.text]

theorem encoded_text (bs : List Byte) (t : ByteTable) : Encoded t (Base64.text true 17 bs) :=
  encoded_of_ascii (text_ascii true 17 bs) t

theorem cString_append_zero {s : List Byte} (h : 0#8 ∉ s) (junk : List Byte) :
    cString (s ++ 0#8 :: junk) = s := by
  have hself := Xml.cString_eq h
  rw [cString, List.takeWhile_eq_self_iff] at hself
  rw [cString, List.takeWhile_append_of_pos hself]
  simp

theorem getSerialString_blob {data : List Byte} (hsmall : data.length ≤ 2 ^ 30) :
    ∃ tmp, VarBlob.getSerialString ⟨data⟩ [] = some tmp ∧
      cString tmp = Base64.text true 17 data := by
  have hnul := Xml.nul_notMem_of_encoded (encoded_text data .utf8)
  obtain rfl | hne := eq_or_ne data []
  · exact ⟨_, Base64.encode_nil [] true, rfl⟩
  · exact ⟨_, Base64.encode_eq hne hsmall [] true, cString_append_zero hnul []⟩

theorem bare_cString (s : List Byte) : Base64.bare (cString s) = Base64.bare s := by
  rw [Base64.bare, Base64.bare, cString, List.takeWhile_takeWhile]
  simp

theorem bare_spaces {w : List Byte} (hw : ∀ b ∈ w, Xml.isSPACECHAR b) (s : List Byte) :
    Base64.bare (w ++ s) = Base64.bare s := by
  have hspace : ∀ {b : Byte}, Xml.isSPACECHAR b →
      b ≠ 0#8 ∧ Base64.base64DecodeTable[b.toNat]? = some 97#8 := by decide
  induction w with
  | nil => rfl
  | cons b w ih =>
    obtain ⟨h0, hcode⟩ := hspace (hw b (by simp))
    have hrest := ih fun c hc => hw c (by simp [hc])
    rw [Base64.bare] at hrest ⊢
    rw [List.cons_append, Base64.takeWhile_cons_ne h0, List.filter_cons_of_neg (by simp [hcode]), hrest]

theorem bare_append_spaces {w : List Byte} (hw : ∀ b ∈ w, Xml.isSPACECHAR b) (s : List Byte) :
    Base64.bare (s ++ w) = Base64.bare s := by
  induction s with
  | nil => simpa using bare_spaces hw []
  | cons b s ih =>
    by_cases h0 : b = 0#8
    · subst h0
      rfl
    · rw [Base64.bare, Base64.bare] at ih ⊢
      rw [List.cons_append, Base64.takeWhile_cons_ne h0, Base64.takeWhile_cons_ne h0,
        List.filter_cons, List.filter_cons, ih]

theorem bare_trim (s : List Byte) : Base64.bare (trim s) = Base64.bare s := by
  obtain ⟨w₁, w₂, hs, hw₁, hw₂⟩ := exists_trim s
  conv_rhs => rw [hs, bare_append_spaces hw₂, bare_spaces hw₁]

-- ---------------------------------------------------------------------------
-- A single element
-- ---------------------------------------------------------------------------

namespace Ranged

variable {α : Type} [Number α]

def boundText (isSet : Bool) (bound : α) : List Byte := if isSet then Number.toText bound else []

theorem boundString_eq {isSet : Bool} {bound : α} (h : isSet → VarTypes.Printable bound) :
    boundString isSet bound = some (boundText isSet bound) := by
  cases isSet with
  | false => rfl
  | true => exact (h rfl).sprintf_eq

theorem readBound_boundText {isSet : Bool} {bound unset : α}
    (h : isSet → VarTypes.Printable bound) (hunset : isSet = false → bound = unset) :
    readBound unset (boundText isSet bound) = bound := by
  cases isSet with
  | false => exact (hunset rfl).symm
  | true =>
    change (if Number.toText bound = [] then unset else Number.scan (Number.toText bound)) = bound
    rw [if_neg (Number.toText_ne_nil bound), (h rfl).scan]

variable [DecidableEq α]

def attributes (r : Ranged α) : List XMLAttribute := [
  ⟨str "minval", some (boundText r.hasMin r.min)⟩,
  ⟨str "maxval", some (boundText r.hasMax r.max)⟩]

theorem updateAttributes_eq {r : Ranged α} (h : r.Printable) (name type : List Byte) :
    r.updateAttributes
        ⟨str "Var", false, [⟨str "name", some name⟩, ⟨str "type", some type⟩], []⟩ =
      some ⟨str "Var", false,
        ⟨str "name", some name⟩ :: ⟨str "type", some type⟩ :: r.attributes, []⟩ := by
  rw [updateAttributes, boundString_eq h.min, boundString_eq h.max]
  rfl

theorem readAttributes_eq {r : Ranged α} (h : r.Printable) (old : Ranged α)
    {name type : List Byte} (contents : List XMLContent) :
    old.readAttributes
        ⟨str "Var", false,
          ⟨str "name", some name⟩ :: ⟨str "type", some type⟩ :: r.attributes, contents⟩ =
      { r with val := old.val } := by
  have hmin : readBound Number.lowest (boundText r.hasMin r.min) = r.min :=
    readBound_boundText h.min (by simp [hasMin])
  have hmax : readBound Number.highest (boundText r.hasMax r.max) = r.max :=
    readBound_boundText h.max (by simp [hasMax])
  rw [readAttributes]
  exact congrArg₂ (Ranged.mk old.val) hmin hmax

end Ranged

namespace VarValue

def attributes : VarValue Double → List XMLAttribute
  | .int r => r.attributes
  | .double r => r.attributes
  | _ => []

def serial : VarValue Double → List Byte
  | .bool val => if val then str "true" else str "false"
  | .int r => Number.toText r.val
  | .double r => Number.toText r.val
  | .string val => val
  | .blob data => Base64.text true 17 data
  | .stringenum selected _ => selected
  | _ => []

theorem printable_range (r : Ranged (BitVec 32)) : r.Printable :=
  ⟨printable_int _, fun _ => printable_int _, fun _ => printable_int _⟩

theorem updateAttributes_eq {value : VarValue Double} (h : value.Saveable) (name type : List Byte) :
    value.updateAttributes
        ⟨str "Var", false, [⟨str "name", some name⟩, ⟨str "type", some type⟩], []⟩ =
      some ⟨str "Var", false,
        ⟨str "name", some name⟩ :: ⟨str "type", some type⟩ :: value.attributes, []⟩ := by
  cases value with
  | int r => exact Ranged.updateAttributes_eq (printable_range r) name type
  | double r => exact Ranged.updateAttributes_eq h name type
  | _ => rfl

theorem getSerialString_eq {value : VarValue Double} (h : value.Saveable) :
    ∃ tmp, value.getSerialString = some tmp ∧ cString tmp = value.serial := by
  cases value with
  | bool val => exact ⟨_, rfl, by cases val <;> rfl⟩
  | int r => exact ⟨_, (printable_int r.val).sprintf_eq, cString_of_encoded (encoded_toText .utf8 r.val)⟩
  | double r => exact ⟨_, h.val.sprintf_eq, cString_of_encoded (encoded_toText .utf8 r.val)⟩
  | string val => exact ⟨_, rfl, cString_of_encoded h⟩
  | blob data => exact getSerialString_blob h
  | stringenum selected children => exact ⟨_, rfl, cString_of_encoded h.1⟩
  | _ => exact ⟨_, rfl, rfl⟩

theorem encoded_serial {value : VarValue Double} (h : value.Saveable) :
    Encoded .utf8 value.serial := by
  cases value with
  | bool val => cases val <;> rfl
  | int r => exact encoded_toText .utf8 r.val
  | double r => exact encoded_toText .utf8 r.val
  | string val => exact h
  | blob data => exact encoded_text data .utf8
  | stringenum selected children => exact h.1
  | _ => rfl

end VarValue

def element (name : List Byte) (value : VarValue Double) (nodes : List XMLNode) : XMLNode :=
  ⟨str "Var", false,
    ⟨str "name", some name⟩ :: ⟨str "type", some (typeToString value.getType)⟩ :: value.attributes,
    .text value.serial :: nodes.map .child⟩

theorem writeXML_eq {name : List Byte} {flags : VarTypeFlag} {value : VarValue Double}
    {nodes : List XMLNode} (hsave : ¬areFlagsSet flags VARTYPE_FLAG_NOSAVE)
    (hname : Encoded .utf8 name) (hvalue : value.Saveable)
    (hchildren : ∀ us : XMLNode, value.updateChildren us = some (us.addAll (nodes.map .child)))
    (parent : XMLNode) :
    VarType.writeXML ⟨name, flags, value⟩ parent =
      some (parent.add (.child (element name value nodes))) := by
  obtain ⟨tmp, htmp, hserial⟩ := VarValue.getSerialString_eq hvalue
  have hattributes := VarValue.updateAttributes_eq hvalue name (typeToString value.getType)
  rw [VarType.writeXML, if_neg hsave, cString_of_encoded hname]
  change (value.updateAttributes ⟨str "Var", false,
    [⟨str "name", some name⟩, ⟨str "type", some (typeToString value.getType)⟩], []⟩ >>= _) = _
  rw [hattributes, htmp]
  simp only [Option.bind_eq_bind, Option.bind_some, hserial, hchildren]
  rfl

-- ---------------------------------------------------------------------------
-- The element is well formed
-- ---------------------------------------------------------------------------

theorem beginsWithText_children (nodes : List XMLNode) :
    ¬Xml.beginsWithText (nodes.map XMLContent.child) := by
  cases nodes <;> simp [Xml.beginsWithText]

theorem contentsWellFormed_children {t : ByteTable} {nodes : List XMLNode}
    (h : ∀ node ∈ nodes, node.WellFormed t) :
    Xml.contentsWellFormed t (nodes.map XMLContent.child) := by
  induction nodes with
  | nil => trivial
  | cons node nodes ih => exact ⟨h node (by simp), ih fun n hn => h n (by simp [hn])⟩

theorem wellFormed_attributes {t : ByteTable} {α : Type} [DecidableEq α] [Number α] (r : Ranged α) :
    ∀ a ∈ r.attributes, a.WellFormed t := by
  have hbound (isSet : Bool) (bound : α) : Encoded t (Ranged.boundText isSet bound) := by
    cases isSet with
    | false => rfl
    | true => exact encoded_toText t bound
  intro a ha
  simp only [Ranged.attributes, List.mem_cons, List.not_mem_nil, or_false] at ha
  obtain rfl | rfl := ha
  · exact .valued ⟨by decide, by decide⟩ (hbound ..)
  · exact .valued ⟨by decide, by decide⟩ (hbound ..)

theorem encoded_typeToString (type : VarTypeId) : Encoded .utf8 (typeToString type) := by
  cases type <;> decide

theorem wellFormed_element {name : List Byte} {value : VarValue Double} {nodes : List XMLNode}
    (hname : Encoded .utf8 name) (hvalue : value.Saveable)
    (hnodes : ∀ node ∈ nodes, node.WellFormed .utf8) :
    (element name value nodes).WellFormed .utf8 := by
  refine ⟨⟨⟨by decide, by decide⟩, by decide, by decide⟩, rfl, ?_,
    value.encoded_serial hvalue, beginsWithText_children nodes, contentsWellFormed_children hnodes⟩
  intro a ha
  rw [List.mem_cons, List.mem_cons] at ha
  obtain rfl | rfl | ha := ha
  · exact .valued ⟨by decide, by decide⟩ hname
  · exact .valued ⟨by decide, by decide⟩ (encoded_typeToString _)
  · cases value with
    | int r => exact wellFormed_attributes r a ha
    | double r => exact wellFormed_attributes r a ha
    | _ => cases ha

-- ---------------------------------------------------------------------------
-- The element is read
-- ---------------------------------------------------------------------------

theorem trimmedContents_children (nodes : List XMLNode) :
    Xml.trimmedContents (nodes.map XMLContent.child) = (nodes.map XMLNode.trimmed).map .child := by
  induction nodes with
  | nil => rfl
  | cons node nodes ih => rw [List.map_cons, Xml.trimmedContents, ih]; rfl

theorem trimmed_element (name : List Byte) (value : VarValue Double) (nodes : List XMLNode) :
    (element name value nodes).trimmed =
      ⟨str "Var", false,
        ⟨str "name", some name⟩ :: ⟨str "type", some (typeToString value.getType)⟩ ::
          value.attributes,
        Xml.trimmedText value.serial ++ (nodes.map XMLNode.trimmed).map .child⟩ := by
  rw [element, XMLNode.trimmed, Xml.trimmedContents, trimmedContents_children]

theorem fixString_getText (name : List Byte) (attributes : List XMLAttribute) (s : List Byte)
    (nodes : List XMLNode) :
    fixString (XMLNode.getText
      ⟨name, false, attributes, Xml.trimmedText s ++ nodes.map XMLContent.child⟩) = trim s := by
  have hchildren : (nodes.map XMLContent.child).filterMap XMLContent.text? = [] := by
    simp [XMLContent.text?]
  rw [XMLNode.getText, List.filterMap_append, hchildren, List.append_nil, Xml.trimmedText]
  split
  · next hempty => rw [hempty]; rfl
  · rfl

theorem readChildren_trimmedText (s : List Byte) (cs : List XMLContent) (c : Children Double) :
    readChildren (Xml.trimmedText s ++ cs) c = readChildren cs c := by
  rw [Xml.trimmedText]
  split
  · rfl
  · rfl

/-- The bounds are read before the value, which has to be within them. -/
theorem Ranged.readText_eq {α : Type} [DecidableEq α] [Number α] {r : Ranged α} (h : r.Printable)
    (old : Ranged α) (keep : Bool) {name type : List Byte} (contents : List XMLContent) :
    (if keep then old else old.readAttributes ⟨str "Var", false,
        ⟨str "name", some name⟩ :: ⟨str "type", some type⟩ :: r.attributes, contents⟩).set
        (Number.scan (trim (Number.toText r.val))) =
      (if keep then old else r).set r.val := by
  rw [trim_toText, h.val.scan]
  cases keep with
  | false =>
    simp only [Bool.false_eq_true, if_false, Ranged.readAttributes_eq h]
    rfl
  | true => rfl

def ReadsAs (nodes : List XMLNode) (vs : List (VarType Double)) : Prop :=
  ∀ c : Children Double,
    readChildren ((nodes.map XMLNode.trimmed).map .child) c = some (restoreAll vs c)

theorem readText_element (name : List Byte) {value old : VarValue Double} (nodes : List XMLNode)
    (flags : VarTypeFlag) (hvalue : value.Saveable) (htype : old.getType = value.getType) :
    old.readText flags (element name value nodes).trimmed = some (value.restoreText flags old) := by
  rw [trimmed_element, VarValue.readText, fixString_getText]
  cases value with
  | bool val =>
    cases old with
    | bool val' =>
      simp only [VarValue.readAttributes, ite_self]
      cases val <;> rfl
    | _ => cases htype
  | int r =>
    cases old with
    | int r' =>
      simp only [VarValue.readAttributes, ← apply_ite VarValue.int]
      exact congrArg (fun r => some (VarValue.int r))
        (Ranged.readText_eq (VarValue.printable_range r) r' _ _)
    | _ => cases htype
  | double r =>
    cases old with
    | double r' =>
      simp only [VarValue.readAttributes, ← apply_ite VarValue.double]
      exact congrArg (fun r => some (VarValue.double r)) (Ranged.readText_eq hvalue r' _ _)
    | _ => cases htype
  | string val =>
    cases old with
    | string val' =>
      simp only [VarValue.readAttributes, ite_self]
      rfl
    | _ => cases htype
  | blob data =>
    cases old with
    | blob data' =>
      obtain ⟨tmp, htmp, htext⟩ := getSerialString_blob hvalue
      have hbare : Base64.bare (trim (Base64.text true 17 data)) = Base64.bare tmp := by
        rw [bare_trim, ← htext, bare_cString]
      have hset := VarBlob.setSerialString_of_bare ⟨data⟩ hvalue htmp hbare ⟨data'⟩
      simp only [VarValue.readAttributes, ite_self, VarValue.serial, VarValue.setSerialString, hset]
      rfl
    | _ => cases htype
  | stringenum selected children =>
    cases old with
    | stringenum selected' children' =>
      simp only [VarValue.readAttributes, ite_self]
      rfl
    | _ => cases htype
  | _ =>
    cases old <;> first | (simp only [VarValue.readAttributes, ite_self]; rfl) | cases htype

theorem readChildren_element {value old : VarValue Double} {nodes : List XMLNode} (s : List Byte)
    (flags : VarTypeFlag) (hnodes : ReadsAs nodes value.getChildren)
    (htype : old.getType = value.getType) :
    old.readChildren flags
        (readChildren (Xml.trimmedText s ++ (nodes.map XMLNode.trimmed).map .child)) =
      some (value.restoreChildren flags old) := by
  cases value with
  | list children =>
    cases old with
    | list children' =>
      rw [VarValue.readChildren, readChildren_trimmedText, hnodes]
      rfl
    | _ => cases htype
  | stringenum selected children =>
    cases old with
    | stringenum selected' children' =>
      rw [VarValue.readChildren, readChildren_trimmedText, hnodes, VarValue.restoreChildren]
      split
      · rfl
      · rfl
    | _ => cases htype
  | selection children =>
    cases old with
    | selection children' =>
      rw [VarValue.readChildren, readChildren_trimmedText, hnodes, VarValue.restoreChildren]
      split
      · rfl
      · rfl
    | _ => cases htype
  | _ => cases old <;> first | rfl | cases htype

theorem getType_restoreText (flags : VarTypeFlag) (value old : VarValue Double) :
    (value.restoreText flags old).getType = old.getType := by
  unfold VarValue.restoreText
  split <;> rfl

theorem readXML_element (name : List Byte) (flags : VarTypeFlag) {value : VarValue Double}
    {nodes : List XMLNode} (hvalue : value.Saveable) (hnodes : ReadsAs nodes value.getChildren)
    {v : VarType Double} (htype : v.getType = value.getType) :
    readXML (element name value nodes).trimmed v =
      some (VarType.restore ⟨name, flags, value⟩ v) := by
  obtain ⟨name', flags', old⟩ := v
  have htext := readText_element name nodes flags' hvalue htype
  have hchildren := readChildren_element value.serial flags' hnodes
    ((getType_restoreText flags' value old).trans htype)
  rw [trimmed_element] at htext ⊢
  rw [readXML, VarType.restore]
  split
  · rfl
  · simp only [htext, hchildren, Option.bind_eq_bind, Option.bind_some]

theorem modify_eq_set {α : Type*} {l : List α} {j : Nat} {a : α} (h : l[j]? = some a) (f : α → α) :
    l.modify j f = l.set j (f a) := by
  obtain ⟨hj, rfl⟩ := List.getElem?_eq_some_iff.mp h
  refine List.ext_getElem? fun i => ?_
  rw [List.getElem?_modify, List.getElem?_set]
  by_cases hij : j = i
  · subst hij
    simp [hj]
  · simp [hij]

theorem readChild_element (name : List Byte) (flags : VarTypeFlag) {value : VarValue Double}
    {nodes : List XMLNode} (hvalue : value.Saveable) (hnodes : ReadsAs nodes value.getChildren)
    (c : Children Double) :
    c.readChild (element name value nodes).trimmed (readXML (element name value nodes).trimmed) =
      some (c.restoreChild name value.getType (VarType.restore ⟨name, flags, value⟩)) := by
  have hname : fixString ((element name value nodes).trimmed.getAttribute (str "name")) = name := by
    rw [trimmed_element]
    rfl
  have htype : stringToType (fixString ((element name value nodes).trimmed.getAttribute (str "type"))) =
      value.getType := by
    rw [trimmed_element]
    exact stringToType_typeToString value
  have hdefined : value.getType ≠ .UNDEFINED := by
    cases value <;> exact fun h => nomatch h
  have hread {v : VarType Double} (hv : v.getType = value.getType) :=
    readXML_element name flags hvalue hnodes hv
  rw [Children.readChild, Children.restoreChild, hname, htype]
  simp only [hdefined, if_false]
  cases hfind : if name = [] then none else c.existing.findIdx? fun v => v.name = name with
  | none =>
    obtain ⟨td, htd, htdType⟩ := exists_newVarType value
    have hnew := @hread { td with name := name } htdType
    simp [htd, NewVarType.node?, hnew]
  | some j =>
    obtain ⟨v, hget⟩ : ∃ v, c.existing[j]? = some v := by
      split at hfind
      · cases hfind
      · exact ⟨_, List.getElem?_eq_getElem (List.findIdx?_eq_some_iff_getElem.mp hfind).1⟩
    simp only [hget, modify_eq_set hget]
    split
    · next hv => rw [hread hv, Option.map_some]
    · obtain ⟨hj, rfl⟩ := List.getElem?_eq_some_iff.mp hget
      rw [List.set_getElem_self hj]

-- ---------------------------------------------------------------------------
-- Whole trees
-- ---------------------------------------------------------------------------

/-- The elements that are written of the nodes, and what is read of them. -/
structure Written (vs : List (VarType Double)) (nodes : List XMLNode) : Prop where
  writeAll : ∀ us : XMLNode, VarTypes.writeAll vs us = some (us.addAll (nodes.map .child))
  wellFormed : ∀ node ∈ nodes, node.WellFormed .utf8
  readsAs : ReadsAs nodes vs
  name : ∀ node ∈ nodes, tcsicmp node.lpszName (str "Var")

theorem updateChildren_eq (value : VarValue Double) (us : XMLNode) :
    value.updateChildren us = writeAll value.getChildren us := by
  cases value <;> rfl

theorem allSaveable_getChildren {value : VarValue Double} (h : value.Saveable) :
    AllSaveable value.getChildren := by
  cases value with
  | list children => exact h
  | stringenum selected children => exact h.2
  | selection children => exact h
  | _ => trivial

theorem exists_written {vs : List (VarType Double)} (h : AllSaveable vs) :
    ∃ nodes, Written vs nodes := by
  induction vs using vars_induction with
  | nil =>
    exact ⟨[], fun us => by simp [writeAll], by simp, fun c => rfl, by simp⟩
  | cons v vs ihchildren ih =>
    obtain ⟨name, flags, value⟩ := v
    obtain ⟨hv, hvs⟩ := h
    obtain ⟨nodes, hnodes⟩ := ih hvs
    by_cases hnosave : areFlagsSet flags VARTYPE_FLAG_NOSAVE
    · refine ⟨nodes, fun us => ?_, hnodes.wellFormed, fun c => ?_, hnodes.name⟩
      · simp [writeAll, VarType.writeXML, hnosave, hnodes.writeAll]
      · rw [hnodes.readsAs, restoreAll, if_pos hnosave]
    · obtain ⟨hname, hvalue⟩ := hv.resolve_left hnosave
      obtain ⟨children, hchildren⟩ := ihchildren (allSaveable_getChildren hvalue)
      have hwrite := writeXML_eq hnosave hname hvalue
        (fun us => (updateChildren_eq value us).trans (hchildren.writeAll us))
      have hchild := readChild_element name flags hvalue hchildren.readsAs
      refine ⟨element name value children :: nodes, fun us => ?_, ?_, fun c => ?_, ?_⟩
      · simp [writeAll, hwrite, hnodes.writeAll]
      · rw [List.forall_mem_cons]
        exact ⟨wellFormed_element hname hvalue hchildren.wellFormed, hnodes.wellFormed⟩
      · have hvar : tcsicmp (element name value children).trimmed.lpszName (str "Var") := rfl
        rw [List.map_cons, List.map_cons, readChildren, if_pos hvar, hchild, restoreAll,
          if_neg hnosave]
        exact hnodes.readsAs _
      · rw [List.forall_mem_cons]
        exact ⟨rfl, hnodes.name⟩

end LARCmaCS.VarTypes
