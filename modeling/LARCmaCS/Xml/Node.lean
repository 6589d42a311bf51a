import LARCmaCS.Xml.Text
import Mathlib.Algebra.GroupWithZero.Nat

/-!
# XML nodes

The tree behind `XMLNode` and `CreateXMLStringR`, which writes it as a string.
The function runs twice, first without a place to write to: the size that it
then gives is the length of the string (`length_createXMLStringR`).
-/

namespace LARCmaCS.Xml

structure XMLAttribute where
  lpszName : List Byte
  lpszValue : Option (List Byte)
  deriving DecidableEq

mutual

/-- The head of a document has no name. -/
structure XMLNode where
  lpszName : List Byte
  isDeclaration : Bool
  pAttribute : List XMLAttribute
  /-- The texts, the clear tags and the children in the order of `pOrder`. -/
  contents : List XMLContent

inductive XMLContent where
  | text (lpszValue : List Byte)
  | clear (lpszOpenTag lpszValue lpszCloseTag : List Byte)
  | child (node : XMLNode)

end

theorem contents_induction {motive : List XMLContent → Prop} (nil : motive [])
    (text : ∀ value cs, motive cs → motive (.text value :: cs))
    (clear : ∀ openTag value closeTag cs, motive cs → motive (.clear openTag value closeTag :: cs))
    (child : ∀ (node : XMLNode) cs, motive node.contents → motive cs → motive (.child node :: cs)) :
    ∀ cs, motive cs
  | [] => nil
  | .text value :: cs => text value cs (contents_induction nil text clear child cs)
  | .clear openTag value closeTag :: cs =>
    clear openTag value closeTag cs (contents_induction nil text clear child cs)
  | .child ⟨name, declaration, attributes, contents⟩ :: cs =>
    child ⟨name, declaration, attributes, contents⟩ cs
      (contents_induction nil text clear child contents)
      (contents_induction nil text clear child cs)

-- ---------------------------------------------------------------------------
-- Access
-- ---------------------------------------------------------------------------

def XMLContent.text? : XMLContent → Option (List Byte)
  | .text value => some value
  | _ => none

def XMLContent.child? : XMLContent → Option XMLNode
  | .child node => some node
  | _ => none

namespace XMLNode

def pChild (x : XMLNode) : List XMLNode := x.contents.filterMap XMLContent.child?

/-- The children that `getChildNode(name, &i)` goes through. -/
def childNodes (x : XMLNode) (name : List Byte) : List XMLNode :=
  x.pChild.filter fun node => tcsicmp node.lpszName name

def getText (x : XMLNode) : Option (List Byte) := (x.contents.filterMap XMLContent.text?).head?

def getAttribute (x : XMLNode) (name : List Byte) : Option (List Byte) :=
  (x.pAttribute.find? fun a => tcsicmp a.lpszName name).bind XMLAttribute.lpszValue

/-- `addText`, `addChild` and `addClear` at the end. -/
def add (x : XMLNode) (content : XMLContent) : XMLNode :=
  { x with contents := x.contents ++ [content] }

def addAttribute (x : XMLNode) (name : List Byte) (value : Option (List Byte)) : XMLNode :=
  { x with pAttribute := x.pAttribute ++ [⟨name, value⟩] }

def updateAttribute (x : XMLNode) (value newName oldName : List Byte) : XMLNode :=
  match x.pAttribute.findIdx? fun a => tcsicmp a.lpszName oldName with
  | some i => { x with pAttribute := x.pAttribute.set i ⟨newName, some value⟩ }
  | none => x.addAttribute newName (some value)

/-- `updateText(value)`, which replaces the first text. -/
def updateText (x : XMLNode) (value : List Byte) : XMLNode :=
  match x.contents.findIdx? fun c => c.text?.isSome with
  | some i => { x with contents := x.contents.set i (.text value) }
  | none => x.add (.text value)

def nElement (x : XMLNode) : Nat := x.pAttribute.length + x.contents.length

end XMLNode

-- ---------------------------------------------------------------------------
-- Rendering
-- ---------------------------------------------------------------------------

/-- An indentation by `nFormat`, `none` for -1. -/
def indentation : (nFormat : Option Nat) → List Byte
  | none => []
  | some n => List.replicate n 9#8

def newline : (nFormat : Option Nat) → List Byte
  | none => []
  | some _ => [10#8]

def attributeString (t : ByteTable) (a : XMLAttribute) : List Byte :=
  if a.lpszName = [] then [] else
  match a.lpszValue with
  | some value => a.lpszName ++ [chr '=', 34#8] ++ toXMLString t value ++ [34#8] ++ [chr ' ']
  | none => a.lpszName ++ [chr ' ']

/-- The last space gives way to what closes the tag. -/
def startTag (t : ByteTable) (nFormat : Option Nat) (x : XMLNode) : List Byte :=
  let tag := indentation nFormat ++ [chr '<'] ++ (if x.isDeclaration then [chr '?'] else []) ++
    x.lpszName ++ [chr ' '] ++ x.pAttribute.flatMap (attributeString t)
  if x.isDeclaration then tag.dropLast ++ [chr '?', chr '>'] ++ newline nFormat
  else if x.contents.isEmpty then tag.dropLast
  else tag.dropLast ++ [chr '>'] ++ newline nFormat

def endTag (nFormat : Option Nat) (x : XMLNode) : List Byte :=
  if x.isDeclaration then []
  else if x.contents.isEmpty then [chr '/', chr '>'] ++ newline nFormat
  else indentation nFormat ++ [chr '<', chr '/'] ++ x.lpszName ++ [chr '>'] ++ newline nFormat

def textString (t : ByteTable) (nFormat : Option Nat) (value : List Byte) : List Byte :=
  if lengthXMLString t value = 0 then []
  else indentation (nFormat.map (· + 1)) ++ toXMLString t value ++ newline nFormat

def clearString (nFormat : Option Nat) (openTag value closeTag : List Byte) : List Byte :=
  (if openTag = [] then [] else indentation (nFormat.map (· + 1)) ++ openTag) ++
    value ++ closeTag ++ newline nFormat

def childFormat (nFormat : Option Nat) (x : XMLNode) : Option Nat :=
  if x.lpszName ≠ [] ∧ ¬x.isDeclaration then nFormat.map (· + 1) else nFormat

mutual

def XMLNode.createXMLStringR (t : ByteTable) (nFormat : Option Nat) : XMLNode → List Byte
  | ⟨name, declaration, attributes, contents⟩ =>
    let x : XMLNode := ⟨name, declaration, attributes, contents⟩
    let inner := contentsString t nFormat (childFormat nFormat x) contents
    if name = [] then inner else startTag t nFormat x ++ inner ++ endTag nFormat x

def contentsString (t : ByteTable) (nFormat nChildFormat : Option Nat) :
    List XMLContent → List Byte
  | [] => []
  | .text value :: cs => textString t nFormat value ++ contentsString t nFormat nChildFormat cs
  | .clear openTag value closeTag :: cs =>
    clearString nFormat openTag value closeTag ++ contentsString t nFormat nChildFormat cs
  | .child node :: cs =>
    node.createXMLStringR t nChildFormat ++ contentsString t nFormat nChildFormat cs

end

/-- Any format but 0 indents. -/
def XMLNode.createXMLString (t : ByteTable) (nFormat : Int) (x : XMLNode) : List Byte :=
  x.createXMLStringR t (if nFormat = 0 then none else some 0)

-- ---------------------------------------------------------------------------
-- Sizes
-- ---------------------------------------------------------------------------

def indentationLength : (nFormat : Option Nat) → Nat
  | none => 0
  | some n => n

def newlineLength : (nFormat : Option Nat) → Nat
  | none => 0
  | some _ => 1

def attributeLength (t : ByteTable) (a : XMLAttribute) : Nat :=
  let cb := a.lpszName.length
  if cb = 0 then 0 else
  match a.lpszValue with
  | some value => cb + (lengthXMLString t value + 3) + 1
  | none => cb + 1

def startLength (t : ByteTable) (nFormat : Option Nat) (x : XMLNode) : Nat :=
  let nResult := x.lpszName.length + 2 + indentationLength nFormat +
    (if x.isDeclaration then 1 else 0) + (x.pAttribute.map (attributeLength t)).sum
  if x.isDeclaration then nResult + 1 + newlineLength nFormat
  else if x.contents.isEmpty then nResult - 1
  else nResult + newlineLength nFormat

def endLength (nFormat : Option Nat) (x : XMLNode) : Nat :=
  if x.isDeclaration then 0
  else if x.contents.isEmpty then
    match nFormat with
    | none => 2
    | some _ => 3
  else
    match nFormat with
    | none => x.lpszName.length + 3
    | some n => x.lpszName.length + 4 + n

def textLength (t : ByteTable) (nFormat : Option Nat) (value : List Byte) : Nat :=
  let cb := lengthXMLString t value
  if cb = 0 then 0 else
  match nFormat with
  | none => cb
  | some n => cb + n + 2

def clearLength (nFormat : Option Nat) (openTag value closeTag : List Byte) : Nat :=
  let cb := openTag.length
  let start :=
    if cb = 0 then 0 else
    match nFormat with
    | none => cb
    | some n => cb + n + 1
  start + value.length + closeTag.length + newlineLength nFormat

mutual

/-- `CreateXMLStringR` without a place to write to. -/
def XMLNode.lengthXMLStringR (t : ByteTable) (nFormat : Option Nat) : XMLNode → Nat
  | ⟨name, declaration, attributes, contents⟩ =>
    let x : XMLNode := ⟨name, declaration, attributes, contents⟩
    let inner := contentsLength t nFormat (childFormat nFormat x) contents
    if name.length = 0 then inner else startLength t nFormat x + inner + endLength nFormat x

def contentsLength (t : ByteTable) (nFormat nChildFormat : Option Nat) : List XMLContent → Nat
  | [] => 0
  | .text value :: cs => textLength t nFormat value + contentsLength t nFormat nChildFormat cs
  | .clear openTag value closeTag :: cs =>
    clearLength nFormat openTag value closeTag + contentsLength t nFormat nChildFormat cs
  | .child node :: cs =>
    node.lengthXMLStringR t nChildFormat + contentsLength t nFormat nChildFormat cs

end

mutual

def XMLNode.AllStrings (p : List Byte → Prop) : XMLNode → Prop
  | ⟨_, _, attributes, contents⟩ =>
    (∀ a ∈ attributes, ∀ value ∈ a.lpszValue, p value) ∧ contentsAllStrings p contents

def contentsAllStrings (p : List Byte → Prop) : List XMLContent → Prop
  | [] => True
  | .text value :: cs => p value ∧ contentsAllStrings p cs
  | .clear _ _ _ :: cs => contentsAllStrings p cs
  | .child node :: cs => node.AllStrings p ∧ contentsAllStrings p cs

end

@[simp] theorem length_indentation (nFormat : Option Nat) :
    (indentation nFormat).length = indentationLength nFormat := by
  cases nFormat <;> simp [indentation, indentationLength]

@[simp] theorem length_newline (nFormat : Option Nat) :
    (newline nFormat).length = newlineLength nFormat := by
  cases nFormat <;> rfl

theorem length_toXMLString {t : ByteTable} {s : List Byte} (h : Encoded t s) :
    (toXMLString t s).length = lengthXMLString t s := by
  rw [toXMLString, toXMLStringFrom_eq h, lengthXMLString, ← lengthXMLStringFrom_eq h, Nat.add_zero]

theorem length_attributeString {t : ByteTable} {a : XMLAttribute}
    (h : ∀ value ∈ a.lpszValue, Encoded t value) :
    (attributeString t a).length = attributeLength t a := by
  unfold attributeString attributeLength
  by_cases hname : a.lpszName = []
  · simp [hname]
  · rw [if_neg hname, if_neg (by simpa using hname)]
    cases hvalue : a.lpszValue with
    | none => simp
    | some value =>
      simp [length_toXMLString (h value hvalue)]
      omega

theorem length_attributes {t : ByteTable} {attributes : List XMLAttribute}
    (h : ∀ a ∈ attributes, ∀ value ∈ a.lpszValue, Encoded t value) :
    (attributes.flatMap (attributeString t)).length = (attributes.map (attributeLength t)).sum := by
  rw [List.length_flatMap]
  exact congrArg List.sum (List.map_congr_left fun a ha => length_attributeString (h a ha))

theorem length_startTag {t : ByteTable} (nFormat : Option Nat) {x : XMLNode}
    (h : ∀ a ∈ x.pAttribute, ∀ value ∈ a.lpszValue, Encoded t value) :
    (startTag t nFormat x).length = startLength t nFormat x := by
  have hattributes := length_attributes h
  unfold startTag startLength
  cases hdeclaration : x.isDeclaration with
  | true => simp [-List.length_flatMap, hattributes]; omega
  | false =>
    cases hcontents : x.contents.isEmpty with
    | true => simp [-List.length_flatMap, hattributes]; omega
    | false => simp [-List.length_flatMap, hattributes]; omega

theorem length_endTag (nFormat : Option Nat) (x : XMLNode) :
    (endTag nFormat x).length = endLength nFormat x := by
  unfold endTag endLength
  cases x.isDeclaration <;> cases x.contents.isEmpty <;> cases nFormat <;>
    (simp [indentationLength, newlineLength]; try omega)

theorem length_textString {t : ByteTable} (nFormat : Option Nat) {value : List Byte}
    (h : Encoded t value) : (textString t nFormat value).length = textLength t nFormat value := by
  unfold textString textLength
  by_cases hcb : lengthXMLString t value = 0
  · simp [hcb]
  · cases nFormat with
    | none => simp [hcb, length_toXMLString h, indentationLength, newlineLength]
    | some n =>
      simp [hcb, length_toXMLString h, indentationLength, newlineLength]
      omega

theorem length_clearString (nFormat : Option Nat) (openTag value closeTag : List Byte) :
    (clearString nFormat openTag value closeTag).length =
      clearLength nFormat openTag value closeTag := by
  unfold clearString clearLength
  by_cases hopen : openTag = []
  · simp [hopen, Nat.add_assoc]
  · cases nFormat with
    | none => simp [hopen, indentationLength, newlineLength, Nat.add_assoc]
    | some n =>
      simp [hopen, indentationLength, newlineLength]
      omega

theorem XMLNode.createXMLStringR_eq (t : ByteTable) (nFormat : Option Nat) (x : XMLNode) :
    x.createXMLStringR t nFormat =
      let inner := contentsString t nFormat (childFormat nFormat x) x.contents
      if x.lpszName = [] then inner else startTag t nFormat x ++ inner ++ endTag nFormat x := by
  cases x
  rfl

theorem XMLNode.lengthXMLStringR_eq (t : ByteTable) (nFormat : Option Nat) (x : XMLNode) :
    x.lengthXMLStringR t nFormat =
      let inner := contentsLength t nFormat (childFormat nFormat x) x.contents
      if x.lpszName.length = 0 then inner
      else startLength t nFormat x + inner + endLength nFormat x := by
  cases x
  rfl

theorem XMLNode.allStrings_iff (p : List Byte → Prop) (x : XMLNode) :
    x.AllStrings p ↔
      (∀ a ∈ x.pAttribute, ∀ value ∈ a.lpszValue, p value) ∧ contentsAllStrings p x.contents := by
  cases x
  rfl

theorem XMLNode.length_of_contents {t : ByteTable} {x : XMLNode} (h : x.AllStrings (Encoded t))
    (nFormat : Option Nat)
    (hcontents : ∀ f g, (contentsString t f g x.contents).length = contentsLength t f g x.contents) :
    (x.createXMLStringR t nFormat).length = x.lengthXMLStringR t nFormat := by
  rw [x.createXMLStringR_eq, x.lengthXMLStringR_eq]
  by_cases hname : x.lpszName = []
  · simp [hname, hcontents]
  · simp [hname, hcontents, length_endTag, length_startTag nFormat ((x.allStrings_iff _).mp h).1,
      Nat.add_assoc]

theorem length_contentsString {t : ByteTable} {cs : List XMLContent}
    (h : contentsAllStrings (Encoded t) cs) (nFormat nChildFormat : Option Nat) :
    (contentsString t nFormat nChildFormat cs).length =
      contentsLength t nFormat nChildFormat cs := by
  induction cs using contents_induction generalizing nFormat nChildFormat with
  | nil => rfl
  | text value cs ih =>
    simp only [contentsString, contentsLength, List.length_append, ih h.2,
      length_textString nFormat h.1]
  | clear openTag value closeTag cs ih =>
    simp only [contentsString, contentsLength, List.length_append, ih h, length_clearString]
  | child node cs ihnode ih =>
    have hnode := ((node.allStrings_iff _).mp h.1).2
    simp only [contentsString, contentsLength, List.length_append, ih h.2,
      XMLNode.length_of_contents h.1 nChildFormat fun f g => ihnode hnode f g]

/-- The buffer is as long as the string that is written to it. -/
theorem length_createXMLStringR (t : ByteTable) (nFormat : Option Nat) (x : XMLNode)
    (h : x.AllStrings (Encoded t)) :
    (x.createXMLStringR t nFormat).length = x.lengthXMLStringR t nFormat :=
  XMLNode.length_of_contents h nFormat fun f g =>
    length_contentsString ((x.allStrings_iff _).mp h).2 f g

theorem length_createXMLStringR_escaped :
    (XMLNode.createXMLStringR .utf8 (some 0) ⟨str "a", false, [], [.text (str "b & c")]⟩).length =
      XMLNode.lengthXMLStringR .utf8 (some 0) ⟨str "a", false, [], [.text (str "b & c")]⟩ :=
  length_createXMLStringR .utf8 (some 0) _ ⟨by simp, rfl, trivial⟩

end LARCmaCS.Xml
