import LARCmaCS.VarTypes.Base64
import LARCmaCS.VarTypes.Number
import LARCmaCS.Xml.File

/-!
# Settings

The tree of settings of the `VarTypes` library, and how its nodes write
themselves to XML (`writeXML`) and read themselves from it (`readXML`). A node
that is read is updated where it stands; what the XML has besides is appended.
A node of type `external`, which keeps its children in a file of its own, is no
part of the trees.
-/

namespace LARCmaCS.VarTypes

open Base64 (VarBlob)
open Xml (Byte XMLNode XMLContent Globals cString createXMLTopNode openFileHelper str tcsicmp)

-- ---------------------------------------------------------------------------
-- Values
-- ---------------------------------------------------------------------------

/-- A null pointer is the empty string. -/
def fixString (cst : Option (List Byte)) : List Byte := cst.getD []

/-- `VarInt` and `VarDouble`. -/
structure Ranged (α : Type) where
  val : α
  min : α
  max : α

namespace Ranged

variable {α : Type} [DecidableEq α] [Number α]

def hasMin (r : Ranged α) : Bool := r.min ≠ Number.lowest

def hasMax (r : Ranged α) : Bool := r.max ≠ Number.highest

/-- `setInt` and `setDouble`. -/
def set (r : Ranged α) (val : α) : Ranged α :=
  { r with
    val :=
      if r.hasMin && Number.lt val r.min then r.min
      else if r.hasMax && Number.lt r.max val then r.max
      else val }

/-- A bound that is not set is the empty string. -/
def boundString (isSet : Bool) (bound : α) : Option (List Byte) :=
  if isSet then sprintf bound else some []

def updateAttributes (r : Ranged α) (us : XMLNode) : Option XMLNode := do
  let minval ← boundString r.hasMin r.min
  let us := us.updateAttribute minval (str "minval") (str "minval")
  let maxval ← boundString r.hasMax r.max
  some (us.updateAttribute maxval (str "maxval") (str "maxval"))

def readBound (unset : α) (s : List Byte) : α := if s = [] then unset else Number.scan s

def readAttributes (r : Ranged α) (us : XMLNode) : Ranged α :=
  { r with
    min := readBound Number.lowest (fixString (us.getAttribute (str "minval")))
    max := readBound Number.highest (fixString (us.getAttribute (str "maxval"))) }

end Ranged

inductive VarTypeId where
  | UNDEFINED
  | BOOL
  | INT
  | DOUBLE
  | STRING
  | BLOB
  | EXTERNAL
  | VECTOR2D
  | VECTOR3D
  | TIMEVAR
  | TIMELINE
  | LIST
  | STRINGENUM
  | SELECTION
  | TRIGGER
  | QWIDGET
  deriving DecidableEq

def typeNames : List (List Byte × VarTypeId) := [
  (str "bool", .BOOL),
  (str "double", .DOUBLE),
  (str "int", .INT),
  (str "string", .STRING),
  (str "blob", .BLOB),
  (str "external", .EXTERNAL),
  (str "vector2d", .VECTOR2D),
  (str "vector3d", .VECTOR3D),
  (str "timeline", .TIMELINE),
  (str "timevar", .TIMEVAR),
  (str "list", .LIST),
  (str "stringenum", .STRINGENUM),
  (str "selection", .SELECTION),
  (str "trigger", .TRIGGER),
  (str "qwidget", .QWIDGET)]

def stringToType (s : List Byte) : VarTypeId :=
  ((typeNames.find? fun p => p.1 = s).map Prod.snd).getD .UNDEFINED

def typeToString (vt : VarTypeId) : List Byte :=
  ((typeNames.find? fun p => p.2 = vt).map Prod.fst).getD (str "undefined")

abbrev VarTypeFlag := BitVec 32

def VARTYPE_FLAG_HIDDEN : VarTypeFlag := 0x2#32
def VARTYPE_FLAG_NOSAVE : VarTypeFlag := 0x10#32
def VARTYPE_FLAG_NOLOAD : VarTypeFlag := 0x20#32
def VARTYPE_FLAG_PERSISTENT : VarTypeFlag := 0x40#32
def VARTYPE_FLAG_NOLOAD_ENUM_CHILDREN : VarTypeFlag := 0x100#32
def VARTYPE_FLAG_NOLOAD_ATTRIBUTES : VarTypeFlag := 0x200#32

mutual

structure VarType (Double : Type) where
  name : List Byte
  flags : VarTypeFlag
  value : VarValue Double

inductive VarValue (Double : Type) where
  | bool (val : Bool)
  | int (r : Ranged (BitVec 32))
  | double (r : Ranged Double)
  | string (val : List Byte)
  | blob (data : List Byte)
  | list (list : List (VarType Double))
  | stringenum (selected : List Byte) (list : List (VarType Double))
  | selection (list : List (VarType Double))
  | trigger
  | qwidget

end

section

variable {Double : Type}

def VarValue.getType : VarValue Double → VarTypeId
  | .bool _ => .BOOL
  | .int _ => .INT
  | .double _ => .DOUBLE
  | .string _ => .STRING
  | .blob _ => .BLOB
  | .list _ => .LIST
  | .stringenum _ _ => .STRINGENUM
  | .selection _ => .SELECTION
  | .trigger => .TRIGGER
  | .qwidget => .QWIDGET

def VarValue.getChildren : VarValue Double → List (VarType Double)
  | .list children => children
  | .stringenum _ children => children
  | .selection children => children
  | _ => []

def VarType.getType (v : VarType Double) : VarTypeId := v.value.getType

def VarType.getChildren (v : VarType Double) : List (VarType Double) := v.value.getChildren

def areFlagsSet (flags f : VarTypeFlag) : Bool := flags &&& f = f

def VarType.addFlags (v : VarType Double) (f : VarTypeFlag) : VarType Double :=
  { v with flags := v.flags ||| f }

theorem vars_induction {motive : List (VarType Double) → Prop} (nil : motive [])
    (cons : ∀ v vs, motive v.getChildren → motive vs → motive (v :: vs)) : ∀ vs, motive vs
  | [] => nil
  | ⟨name, flags, .list list⟩ :: vs =>
    cons _ vs (vars_induction nil cons list) (vars_induction nil cons vs)
  | ⟨name, flags, .stringenum selected list⟩ :: vs =>
    cons _ vs (vars_induction nil cons list) (vars_induction nil cons vs)
  | ⟨name, flags, .selection list⟩ :: vs =>
    cons _ vs (vars_induction nil cons list) (vars_induction nil cons vs)
  | ⟨name, flags, .bool val⟩ :: vs => cons _ vs nil (vars_induction nil cons vs)
  | ⟨name, flags, .int r⟩ :: vs => cons _ vs nil (vars_induction nil cons vs)
  | ⟨name, flags, .double r⟩ :: vs => cons _ vs nil (vars_induction nil cons vs)
  | ⟨name, flags, .string val⟩ :: vs => cons _ vs nil (vars_induction nil cons vs)
  | ⟨name, flags, .blob data⟩ :: vs => cons _ vs nil (vars_induction nil cons vs)
  | ⟨name, flags, .trigger⟩ :: vs => cons _ vs nil (vars_induction nil cons vs)
  | ⟨name, flags, .qwidget⟩ :: vs => cons _ vs nil (vars_induction nil cons vs)

end

variable {Double : Type} [DecidableEq Double] [Number Double]

-- ---------------------------------------------------------------------------
-- Writing
-- ---------------------------------------------------------------------------

/-- `none` if the text does not fit. -/
def VarValue.getSerialString : VarValue Double → Option (List Byte)
  | .bool val => some (if val then str "true" else str "false")
  | .int r => sprintf r.val
  | .double r => sprintf r.val
  | .string val => some val
  | .blob data => VarBlob.getSerialString ⟨data⟩ []
  | .list _ => some []
  | .stringenum selected _ => some selected
  | .selection _ => some []
  | .trigger => some []
  | .qwidget => some []

def VarValue.updateAttributes : VarValue Double → XMLNode → Option XMLNode
  | .int r, us => r.updateAttributes us
  | .double r, us => r.updateAttributes us
  | _, us => some us

mutual

/-- The parent with the element of the node at its end. -/
def VarType.writeXML : VarType Double → (parent : XMLNode) → Option XMLNode
  | ⟨name, flags, value⟩, parent =>
    if areFlagsSet flags VARTYPE_FLAG_NOSAVE then some parent else do
    let us : XMLNode := ⟨str "Var", false, [], []⟩
    let us := us.updateAttribute (cString name) (str "name") (str "name")
    let us := us.updateAttribute (typeToString value.getType) (str "type") (str "type")
    let us ← value.updateAttributes us
    let tmp ← value.getSerialString
    let us ← value.updateChildren (us.updateText (cString tmp))
    some (parent.add (.child us))

/-- `deleteAllVarChildren` has nothing to delete in a new element. -/
def VarValue.updateChildren : VarValue Double → (us : XMLNode) → Option XMLNode
  | .list children, us => writeAll children us
  | .stringenum _ children, us => writeAll children us
  | .selection children, us => writeAll children us
  | _, us => some us

def writeAll : List (VarType Double) → (us : XMLNode) → Option XMLNode
  | [], us => some us
  | v :: vs, us => do
    let us ← v.writeXML us
    writeAll vs us

end

-- ---------------------------------------------------------------------------
-- Reading
-- ---------------------------------------------------------------------------

inductive NewVarType (Double : Type) where
  | node (td : VarType Double)
  /-- A `VarExternal`. -/
  | external
  | null

def newVarType : VarTypeId → NewVarType Double
  | .BOOL => .node ⟨[], VARTYPE_FLAG_PERSISTENT, .bool false⟩
  | .INT => .node ⟨[], 0, .int ⟨Number.zero, Number.lowest, Number.highest⟩⟩
  | .DOUBLE => .node ⟨[], 0, .double ⟨Number.zero, Number.lowest, Number.highest⟩⟩
  | .STRING => .node ⟨[], 0, .string []⟩
  | .BLOB => .node ⟨[], 0, .blob []⟩
  | .EXTERNAL => .external
  | .LIST => .node ⟨[], 0, .list []⟩
  | .STRINGENUM => .node ⟨[], 0, .stringenum [] []⟩
  | .SELECTION => .node ⟨[], 0, .selection []⟩
  | .QWIDGET => .node ⟨[], VARTYPE_FLAG_PERSISTENT, .qwidget⟩
  | .TRIGGER => .node ⟨[], VARTYPE_FLAG_PERSISTENT, .trigger⟩
  | _ => .null

/-- The null pointer is used, which has no result. What is read into a
`VarExternal`, from a file of its own, is left out. -/
def NewVarType.node? : NewVarType Double → Option (VarType Double)
  | .node td => some td
  | .external => none
  | .null => none

def VarValue.readAttributes (us : XMLNode) : VarValue Double → VarValue Double
  | .int r => .int (r.readAttributes us)
  | .double r => .double (r.readAttributes us)
  | value => value

def VarValue.setSerialString (val : List Byte) : VarValue Double → Option (VarValue Double)
  | .bool _ => some (.bool (val = str "true"))
  | .int r => some (.int (r.set (Number.scan val)))
  | .double r => some (.double (r.set (Number.scan val)))
  | .string _ => some (.string val)
  | .blob data => (VarBlob.setSerialString ⟨data⟩ val).map fun blob => .blob blob.data
  | .stringenum _ children => some (.stringenum val children)
  | value => some value

/-- The nodes that were there, and those that have been appended. -/
structure Children (Double : Type) where
  existing : List (VarType Double)
  new : List (VarType Double)

def Children.result (c : Children Double) : List (VarType Double) := c.existing ++ c.new

def hide (list : List (VarType Double)) : List (VarType Double) :=
  list.map fun v => v.addFlags VARTYPE_FLAG_HIDDEN

def Children.readChild (c : Children Double) (t : XMLNode)
    (read : VarType Double → Option (VarType Double)) : Option (Children Double) :=
  let sname := fixString (t.getAttribute (str "name"))
  let type := stringToType (fixString (t.getAttribute (str "type")))
  if type = .UNDEFINED then some c else
  match if sname = [] then none else c.existing.findIdx? fun v => v.name = sname with
  | some j =>
    match c.existing[j]? with
    | some v =>
      if v.getType = type then
        (read v).map fun v => { c with existing := c.existing.set j v }
      else some c
    | none => some c
  | none => do
    let td ← (newVarType type).node?
    let td ← read { td with name := sname }
    some { c with new := c.new ++ [td] }

def VarValue.readText (flags : VarTypeFlag) (us : XMLNode) (value : VarValue Double) :
    Option (VarValue Double) :=
  let value :=
    if areFlagsSet flags VARTYPE_FLAG_NOLOAD_ATTRIBUTES then value else value.readAttributes us
  value.setSerialString (fixString us.getText)

def VarValue.readChildren (flags : VarTypeFlag)
    (read : Children Double → Option (Children Double)) : VarValue Double → Option (VarValue Double)
  | .list children => (read ⟨children, []⟩).map fun c => .list c.result
  | .stringenum selected children =>
    if areFlagsSet flags VARTYPE_FLAG_NOLOAD_ENUM_CHILDREN then some (.stringenum selected children)
    else (read ⟨children, []⟩).map fun c => .stringenum selected (hide c.result)
  | .selection children =>
    if areFlagsSet flags VARTYPE_FLAG_NOLOAD_ENUM_CHILDREN then some (.selection children)
    else (read ⟨children, []⟩).map fun c => .selection (hide c.result)
  | value => some value

mutual

def readXML : (us : XMLNode) → VarType Double → Option (VarType Double)
  | ⟨name, isDeclaration, attributes, contents⟩, v =>
    if areFlagsSet v.flags VARTYPE_FLAG_NOLOAD then some v else do
    let value ← v.value.readText v.flags ⟨name, isDeclaration, attributes, contents⟩
    let value ← value.readChildren v.flags (readChildren contents)
    some { v with value := value }

/-- `readChildrenHelper`, which goes through the children with the name `Var`. -/
def readChildren : List XMLContent → Children Double → Option (Children Double)
  | [], c => some c
  | .child t :: cs, c =>
    if tcsicmp t.lpszName (str "Var") then do
      let c ← c.readChild t (readXML t)
      readChildren cs c
    else readChildren cs c
  | .text _ :: cs, c => readChildren cs c
  | .clear _ _ _ :: cs, c => readChildren cs c

end

end LARCmaCS.VarTypes
