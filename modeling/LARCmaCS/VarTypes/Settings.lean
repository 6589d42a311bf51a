import LARCmaCS.Lib.Machine
import LARCmaCS.VarTypes.Keeping
import LARCmaCS.VarTypes.Shape

/-!
# Files of settings

`VarXML::write` puts the settings into the file that is there: what else its
root has stays. A process that writes and reads the file and opens others might
as well keep the settings in a variable (`run_refines_store`), so that they come
back into a tree of their shape (`run_write_read`). What any other file does to
a tree is said by `exists_read_iff` and `allKept_readFiles`. All this is about
trees without nodes of type `external`.
-/

namespace LARCmaCS.VarTypes

open Xml (Byte XMLNode XMLContent Globals StaysInside Writing createXMLTopNode openFileHelper str tcsicmp)

-- ---------------------------------------------------------------------------
-- The children that are settings
-- ---------------------------------------------------------------------------

def isVar : XMLContent → Bool
  | .child t => tcsicmp t.lpszName (str "Var")
  | _ => false

/-- The first child with the name is deleted as often as there are such children. -/
def deleteAllVarChildren (node : XMLNode) : XMLNode :=
  let n := (node.childNodes (str "Var")).length
  { node with contents := (List.eraseP isVar)^[n] node.contents }

theorem iterate_eraseP {α : Type*} (p : α → Bool) (l : List α) :
    (List.eraseP p)^[l.countP p] l = l.filter fun a => !p a := by
  induction l with
  | nil => rfl
  | cons a l ih =>
    by_cases ha : p a
    · rw [List.countP_cons_of_pos ha, Function.iterate_succ_apply, List.eraseP_cons_of_pos ha, ih,
        List.filter_cons_of_neg (by simp [ha])]
    · have hkeep : Function.Semiconj (List.cons a) (List.eraseP p) (List.eraseP p) :=
        fun l => (List.eraseP_cons_of_neg ha).symm
      rw [List.countP_cons_of_neg ha, ← (hkeep.iterate_right _).eq, ih,
        List.filter_cons_of_pos (by simp [ha])]

theorem length_childNodes (node : XMLNode) :
    (node.childNodes (str "Var")).length = node.contents.countP isVar := by
  rw [XMLNode.childNodes, XMLNode.pChild, List.filter_filterMap, List.length_filterMap_eq_countP]
  refine List.countP_congr fun c _ => ?_
  cases c with
  | child t => by_cases h : tcsicmp t.lpszName (str "Var") <;> simp [XMLContent.child?, isVar, h]
  | _ => simp [XMLContent.child?, isVar]

theorem deleteAllVarChildren_eq (node : XMLNode) :
    deleteAllVarChildren node = { node with contents := node.contents.filter fun c => !isVar c } := by
  rw [deleteAllVarChildren, length_childNodes, iterate_eraseP]

theorem deleteAllVarChildren_addAll {node : XMLNode} {cs : List XMLContent}
    (hnode : ∀ c ∈ node.contents, ¬isVar c) (hcs : ∀ c ∈ cs, isVar c) :
    deleteAllVarChildren (node.addAll cs) = node := by
  have hkeep : node.contents.filter (fun c => !isVar c) = node.contents :=
    List.filter_eq_self.mpr fun c hc => by simp [hnode c hc]
  have hdelete : cs.filter (fun c => !isVar c) = [] :=
    List.filter_eq_nil_iff.mpr fun c hc => by simp [hcs c hc]
  rw [deleteAllVarChildren_eq, XMLNode.addAll]
  simp only [List.filter_append, hkeep, hdelete, List.append_nil]
  cases node
  rfl

-- ---------------------------------------------------------------------------
-- Writing and reading
-- ---------------------------------------------------------------------------

variable {Double : Type} [DecidableEq Double] [Number Double]

namespace VarXML

/-- `none` for the file is one that is not there yet. The error that
`writeToFile` returns is dropped. -/
def write (g : Globals) (file : Option (List Byte)) (writing : Writing)
    (rootVars : List (VarType Double)) : Option (Option (List Byte) × Globals) := do
  let (root, g) ← openFileHelper g file (str "VarXML")
  let root ← writeAll rootVars (deleteAllVarChildren root)
  some ((root.writeToFile g none 1 writing file).2, g)

def read (g : Globals) (file : Option (List Byte)) (existing_nodes : List (VarType Double)) :
    Option (List (VarType Double) × Globals) := do
  let (root, g) ← openFileHelper g file (str "VarXML")
  let c ← readChildren root.contents ⟨existing_nodes, []⟩
  some (c.result, g)

end VarXML

/-- What the file has besides settings can be written and read again. -/
def Sound (file : Option (List Byte)) : Prop :=
  ∀ g : Globals, ∃ root g', openFileHelper g file (str "VarXML") = some (root, g') ∧
    (deleteAllVarChildren root).WellFormed .utf8 ∧ tcsicmp root.lpszName (str "VarXML")

structure Stores (file : Option (List Byte)) (vs : List (VarType Double)) : Prop where
  sound : Sound file
  /-- What is read of the file, into whatever is there already. -/
  read : ∀ g existing, ∃ g', VarXML.read g file existing =
    some ((restoreAll vs ⟨existing, []⟩).result, g')

theorem stores_of_topNode {file : Option (List Byte)}
    (h : ∀ g, ∃ g', openFileHelper g file (str "VarXML") = some (createXMLTopNode (str "VarXML"), g')) :
    Stores file ([] : List (VarType Double)) := by
  refine ⟨fun g => ?_, fun g existing => ?_⟩
  · obtain ⟨g', hopen⟩ := h g
    refine ⟨_, g', hopen, ?_, by decide⟩
    exact ⟨⟨⟨by decide, by decide⟩, by decide, by decide⟩, rfl, (fun a ha => nomatch ha), trivial⟩
  · obtain ⟨g', hopen⟩ := h g
    exact ⟨g', by rw [VarXML.read, hopen]; rfl⟩

theorem stores_none : Stores none ([] : List (VarType Double)) :=
  stores_of_topNode fun g => ⟨g, rfl⟩

theorem stores_empty : Stores (some []) ([] : List (VarType Double)) :=
  stores_of_topNode fun _ => ⟨_, rfl⟩

-- ---------------------------------------------------------------------------
-- A file that has been written
-- ---------------------------------------------------------------------------

theorem not_isVar_trimmedContents {cs : List XMLContent} (h : ∀ c ∈ cs, ¬isVar c) :
    ∀ c ∈ Xml.trimmedContents cs, ¬isVar c := by
  induction cs with
  | nil => simp [Xml.trimmedContents]
  | cons c cs ih =>
    obtain ⟨hc, hcs⟩ := List.forall_mem_cons.mp h
    cases c with
    | text value =>
      rw [Xml.trimmedContents, Xml.trimmedText]
      split
      · exact ih hcs
      · exact List.forall_mem_cons.mpr ⟨by simp [isVar], ih hcs⟩
    | clear openTag value closeTag => exact List.forall_mem_cons.mpr ⟨hc, ih hcs⟩
    | child node =>
      refine List.forall_mem_cons.mpr ⟨?_, ih hcs⟩
      rwa [isVar, Xml.lpszName_trimmed]

theorem readChildren_append {cs ds : List XMLContent} (h : ∀ c ∈ cs, ¬isVar c)
    (c : Children Double) : readChildren (cs ++ ds) c = readChildren ds c := by
  induction cs with
  | nil => rfl
  | cons content cs ih =>
    obtain ⟨hcontent, hcs⟩ := List.forall_mem_cons.mp h
    cases content with
    | child t =>
      rw [List.cons_append, readChildren]
      exact (if_neg hcontent).trans (ih hcs)
    | _ => rw [List.cons_append, readChildren, ih hcs]

theorem not_isVar_deleteAllVarChildren (node : XMLNode) :
    ∀ c ∈ (deleteAllVarChildren node).contents, ¬isVar c := by
  rw [deleteAllVarChildren_eq]
  intro c hc
  simpa using (List.mem_filter.mp hc).2

section Written

variable {base : XMLNode} {nodes : List XMLNode}

theorem wellFormed_addAll (hbase : base.WellFormed .utf8)
    (hnodes : ∀ node ∈ nodes, node.WellFormed .utf8) :
    (base.addAll (nodes.map .child)).WellFormed .utf8 := by
  obtain ⟨hname, hdeclaration, hattributes, hcontents⟩ := base.wellFormed_iff.mp hbase
  exact (XMLNode.wellFormed_iff _).mpr ⟨hname, hdeclaration, hattributes,
    Xml.contentsWellFormed_append hcontents (contentsWellFormed_children hnodes)
      (beginsWithText_children nodes)⟩

theorem trimmed_addAll : (base.addAll (nodes.map .child)).trimmed =
    base.trimmed.addAll ((nodes.map XMLNode.trimmed).map .child) := by
  simp only [XMLNode.trimmed_eq, XMLNode.addAll, Xml.trimmedContents_append, trimmedContents_children]

theorem isVar_trimmed (h : ∀ node ∈ nodes, tcsicmp node.lpszName (str "Var")) :
    ∀ c ∈ (nodes.map XMLNode.trimmed).map XMLContent.child, isVar c := by
  intro c hc
  rw [List.map_map, List.mem_map] at hc
  obtain ⟨node, hnode, rfl⟩ := hc
  have hname := h node hnode
  rwa [← Xml.lpszName_trimmed] at hname

end Written

/-- However the writing goes, it is the writing of a tree that stores the settings. -/
theorem exists_write {file : Option (List Byte)} (hfile : Sound file) {vs : List (VarType Double)}
    (hvs : AllSaveable vs) (g : Globals) :
    ∃ root g', (∀ writing, VarXML.write g file writing vs =
        some ((XMLNode.writeToFile g' root none 1 writing file).2, g')) ∧
      Stores (some (root.fileBytes g' none 1)) vs := by
  obtain ⟨root, g₁, hopen, hroot, htag⟩ := hfile g
  obtain ⟨nodes, hnodes⟩ := exists_written hvs
  have hvars := not_isVar_deleteAllVarChildren root
  generalize hbase : deleteAllVarChildren root = base at hroot hvars
  have hname : tcsicmp base.lpszName (str "VarXML") := by
    rwa [← hbase]
  have hcontents : ∀ c ∈ base.trimmed.contents, ¬isVar c := by
    rw [XMLNode.trimmed_eq]
    exact not_isVar_trimmedContents hvars
  have hreopen (g : Globals) := Xml.openFileHelper_fileBytes g₁ g (str "VarXML") 1 _
    (wellFormed_addAll hroot hnodes.wellFormed) hname (by decide)
  rw [trimmed_addAll] at hreopen
  refine ⟨_, g₁, fun writing => ?_, fun g => ⟨_, _, hreopen g, ?_, ?_⟩, fun g existing =>
    ⟨{ g with XML_ByteTable := .utf8 }, ?_⟩⟩
  · simp [VarXML.write, hopen, hbase, hnodes.writeAll]
  · rw [deleteAllVarChildren_addAll hcontents (isVar_trimmed hnodes.name)]
    exact Xml.wellFormed_trimmed hroot
  · rwa [XMLNode.lpszName_addAll, Xml.lpszName_trimmed]
  · have hread := (readChildren_append hcontents ⟨existing, []⟩).trans (hnodes.readsAs _)
    rw [VarXML.read, hreopen g]
    simp only [Option.bind_eq_bind, Option.bind_some, XMLNode.addAll, hread]

-- ---------------------------------------------------------------------------
-- Files of any kind
-- ---------------------------------------------------------------------------

/-- A file of any kind is read into any tree, unless a setting in it has a type
for which the factory returns a null pointer. -/
theorem exists_read_iff (g : Globals) {file : Option (List Byte)} (hfile : StaysInside file)
    (hinternal : ∀ root g', openFileHelper g file (str "VarXML") = some (root, g') →
      AllReadable VarTypeId.isInternal root.contents) :
    (∀ existing : List (VarType Double), ∃ result, VarXML.read g file existing = some result) ↔
      ∃ root g', openFileHelper g file (str "VarXML") = some (root, g') ∧
        AllReadable VarTypeId.isKnown root.contents := by
  obtain ⟨root, g', hopen⟩ := Xml.exists_openFileHelper g hfile (str "VarXML")
  have hnode : AllReadable VarTypeId.hasNode root.contents ↔
      AllReadable VarTypeId.isKnown root.contents := by
    refine allReadable_and.trans ⟨And.left, fun hknown => ⟨hknown, hinternal root g' hopen⟩⟩
  have hread (existing : List (VarType Double)) : VarXML.read g file existing =
      (readChildren root.contents ⟨existing, []⟩).bind fun c => some (c.result, g') := by
    rw [VarXML.read, hopen]
    rfl
  constructor
  · intro h
    obtain ⟨result, hresult⟩ := h []
    rw [hread] at hresult
    obtain ⟨c, hc, -⟩ := Option.bind_eq_some_iff.mp hresult
    exact ⟨root, g', hopen, hnode.mp (allReadable_of_readChildren_nil hc)⟩
  · rintro ⟨root', g'', hopen', hroot⟩ existing
    obtain ⟨rfl, rfl⟩ : root = root' ∧ g' = g'' := by simpa [hopen] using hopen'
    obtain ⟨c, hc⟩ := exists_readChildren (hnode.mpr hroot) ⟨existing, []⟩
    exact ⟨_, by rw [hread, hc, Option.bind_some]⟩

def varRoot (type : List Byte) : XMLNode :=
  ⟨str "VarXML", false, [],
    [.child ⟨str "Var", false, [⟨str "name", some (str "a")⟩, ⟨str "type", some type⟩], []⟩]⟩

def varFile (type : List Byte) : Option (List Byte) :=
  some ((varRoot type).fileBytes ⟨.utf8, .bracket⟩ none 1)

theorem wellFormed_varRoot {type : List Byte} (h : Xml.Encoded .utf8 type) :
    (varRoot type).WellFormed .utf8 := by
  refine ⟨⟨⟨by decide, by decide⟩, by decide, by decide⟩, rfl, (fun a ha => nomatch ha), ?_, trivial⟩
  refine ⟨⟨⟨by decide, by decide⟩, by decide, by decide⟩, rfl, fun a ha => ?_, trivial⟩
  rw [List.mem_pair] at ha
  obtain rfl | rfl := ha
  · exact .valued ⟨by decide, by decide⟩ rfl
  · exact .valued ⟨by decide, by decide⟩ h

theorem openFileHelper_varFile {type : List Byte} (h : Xml.Encoded .utf8 type) (g : Globals) :
    openFileHelper g (varFile type) (str "VarXML") =
      some (varRoot type, { g with XML_ByteTable := .utf8 }) :=
  Xml.openFileHelper_fileBytes _ g (str "VarXML") 1 _ (wellFormed_varRoot h) rfl (by decide)

theorem staysInside_varFile {type : List Byte} (h : Xml.Encoded .utf8 type) :
    StaysInside (varFile type) :=
  Xml.staysInside_fileBytes _ (wellFormed_varRoot h) (by decide)

theorem internal_varFile {type : List Byte} (h : Xml.Encoded .utf8 type)
    (htype : (stringToType type).isInternal) (hleaf : ¬(stringToType type).hasChildren) (g : Globals)
    (root : XMLNode) (g' : Globals)
    (hopen : openFileHelper g (varFile type) (str "VarXML") = some (root, g')) :
    AllReadable VarTypeId.isInternal root.contents := by
  rw [openFileHelper_varFile h] at hopen
  obtain ⟨rfl, -⟩ := Prod.mk.inj (Option.some.inj hopen)
  exact ⟨fun _ => .inr ⟨htype, fun hchildren => absurd hchildren hleaf⟩, trivial⟩

theorem exists_read_iff_vector2d :
    (¬∀ existing : List (VarType (BitVec 32)), ∃ result,
        VarXML.read ⟨.ascii, .bracket⟩ (varFile (str "vector2d")) existing = some result) ∧
      ∀ existing : List (VarType (BitVec 32)), ∃ result,
        VarXML.read ⟨.ascii, .bracket⟩ (varFile (str "int")) existing = some result := by
  have hvector : Xml.Encoded .utf8 (str "vector2d") := by decide
  have hint : Xml.Encoded .utf8 (str "int") := by decide
  refine ⟨fun h => ?_, ?_⟩
  · rw [exists_read_iff _ (staysInside_varFile hvector)
      (internal_varFile hvector (by decide) (by decide) _)] at h
    obtain ⟨root, g', hroot, hknown⟩ := h
    rw [openFileHelper_varFile hvector] at hroot
    obtain ⟨rfl, -⟩ := Prod.mk.inj (Option.some.inj hroot)
    obtain hundefined | ⟨hknown, -⟩ := hknown.1 rfl
    · exact absurd hundefined (by decide)
    · exact absurd hknown (by decide)
  · rw [exists_read_iff _ (staysInside_varFile hint)
      (internal_varFile hint (by decide) (by decide) _)]
    exact ⟨_, _, openFileHelper_varFile hint _,
      fun _ => .inr ⟨rfl, fun hchildren => absurd hchildren (by decide)⟩, trivial⟩

theorem allKept_read {g g' : Globals} {file : Option (List Byte)} {existing vars : List (VarType Double)}
    (h : VarXML.read g file existing = some (vars, g')) : AllKept existing vars := by
  obtain ⟨⟨root, g₁⟩, -, hread⟩ := Option.bind_eq_some_iff.mp h
  obtain ⟨c, hc, hresult⟩ := Option.bind_eq_some_iff.mp hread
  obtain ⟨rfl, rfl⟩ : c.result = vars ∧ g₁ = g' := by simpa using hresult
  exact (allKept_readChildren hc).append c.new

def readFiles (files : List (Option (List Byte))) (tree : List (VarType Double) × Globals) :
    Option (List (VarType Double) × Globals) :=
  files.foldlM (fun (tree, g) file => VarXML.read g file tree) tree

theorem allKept_readFiles (files : List (Option (List Byte)))
    {tree tree' : List (VarType Double)} {g g' : Globals}
    (h : readFiles files (tree, g) = some (tree', g')) : AllKept tree tree' := by
  induction files generalizing tree g with
  | nil =>
    obtain ⟨rfl, rfl⟩ : tree = tree' ∧ g = g' := by simpa [readFiles] using h
    exact .refl tree
  | cons file files ih =>
    obtain ⟨⟨tree₁, g₁⟩, hread, hrest⟩ := Option.bind_eq_some_iff.mp h
    exact (allKept_read hread).trans (ih hrest)

def gain (r : Ranged (BitVec 32)) : VarType (BitVec 32) := ⟨str "gain", 0#32, .int r⟩

theorem allKept_readFiles_gain :
    ∃ file g', readFiles [none, file] ([gain ⟨1#32, 0#32, 3#32⟩], ⟨.ascii, .bracket⟩) =
        some ([gain ⟨5#32, 0#32, 10#32⟩], g') ∧
      AllKept [gain ⟨1#32, 0#32, 3#32⟩] [gain ⟨5#32, 0#32, 10#32⟩] := by
  have hsave : AllSaveable [gain ⟨5#32, 0#32, 10#32⟩] := ⟨.inr ⟨by decide, trivial⟩, trivial⟩
  have hnone : Stores none ([] : List (VarType (BitVec 32))) := stores_none
  obtain ⟨root, g₁, -, hfile⟩ := exists_write hnone.sound hsave ⟨.utf8, .bracket⟩
  obtain ⟨g', hread⟩ := hfile.read ⟨.ascii, .bracket⟩ [gain ⟨1#32, 0#32, 3#32⟩]
  have hfiles : readFiles [none, some (root.fileBytes g₁ none 1)]
      ([gain ⟨1#32, 0#32, 3#32⟩], ⟨.ascii, .bracket⟩) = some ([gain ⟨5#32, 0#32, 10#32⟩], g') := by
    exact congrArg (fun o => o >>= some) hread
  exact ⟨_, g', hfiles, allKept_readFiles _ hfiles⟩

-- ---------------------------------------------------------------------------
-- Processes that write, read and open files
-- ---------------------------------------------------------------------------

structure Process where
  file : Option (List Byte)
  globals : Globals

inductive Action (Double : Type) where
  | write (rootVars : List (VarType Double)) (writing : Writing)
  | read (existing_nodes : List (VarType Double))
  /-- Another file is opened. -/
  | openOther (file : Option (List Byte)) (tag : List Byte)

def step (s : Process) : Action Double → Option (Process × Option (List (VarType Double)))
  | .write rootVars writing => do
    let (file, g) ← VarXML.write s.globals s.file writing rootVars
    some (⟨file, g⟩, none)
  | .read existing_nodes => do
    let (vars, g) ← VarXML.read s.globals s.file existing_nodes
    some ({ s with globals := g }, some vars)
  | .openOther file tag => do
    let (_, g) ← openFileHelper s.globals file tag
    some ({ s with globals := g }, none)

/-- The settings that were written last, without a file. What a write leaves
that fails half-way is no file of settings. -/
def store (vs : List (VarType Double)) :
    Action Double → Option (List (VarType Double) × Option (List (VarType Double)))
  | .write rootVars .succeeds => some (rootVars, none)
  | .write _ .cannotOpen => some (vs, none)
  | .write _ (.fails _) => none
  | .read existing_nodes => some (vs, some (restoreAll vs ⟨existing_nodes, []⟩).result)
  | .openOther _ _ => some (vs, none)

def Action.Regular : Action Double → Prop
  | .write rootVars writing => AllSaveable rootVars ∧ ∀ n, writing ≠ .fails n
  | .read _ => True
  | .openOther file _ => StaysInside file

theorem step_simulates {s : Process} {vs vs' : List (VarType Double)} {a : Action Double}
    {out : Option (List (VarType Double))} (hs : Stores s.file vs) (ha : a.Regular)
    (hstore : store vs a = some (vs', out)) :
    ∃ s', step s a = some (s', out) ∧ Stores s'.file vs' := by
  cases a with
  | write rootVars writing =>
    obtain ⟨root, g', hwrite, hfile'⟩ := exists_write hs.sound ha.1 s.globals
    cases writing with
    | cannotOpen =>
      obtain ⟨rfl, rfl⟩ : vs = vs' ∧ none = out := by simpa [store] using hstore
      exact ⟨⟨s.file, g'⟩, by simp [step, hwrite, XMLNode.writeToFile], hs⟩
    | fails n => exact absurd rfl (ha.2 n)
    | succeeds =>
      obtain ⟨rfl, rfl⟩ : rootVars = vs' ∧ none = out := by simpa [store] using hstore
      exact ⟨⟨_, g'⟩, by simp [step, hwrite, XMLNode.writeToFile], hfile'⟩
  | read existing_nodes =>
    obtain ⟨rfl, rfl⟩ : vs = vs' ∧ _ = out := by simpa [store] using hstore
    obtain ⟨g', hread⟩ := hs.read s.globals existing_nodes
    exact ⟨{ s with globals := g' }, by simp [step, hread], hs⟩
  | openOther file tag =>
    obtain ⟨rfl, rfl⟩ : vs = vs' ∧ none = out := by simpa [store] using hstore
    obtain ⟨node, g', hopen⟩ := Xml.exists_openFileHelper s.globals ha tag
    exact ⟨{ s with globals := g' }, by simp [step, hopen], hs⟩

theorem run_simulates {s : Process} {vs vs' : List (VarType Double)} (hs : Stores s.file vs)
    {acts : List (Action Double)} (hacts : ∀ a ∈ acts, a.Regular)
    {outs : List (Option (List (VarType Double)))}
    (hstore : Machine.run store vs acts = some (vs', outs)) :
    ∃ s', Machine.run step s acts = some (s', outs) ∧ Stores s'.file vs' := by
  have hstep (s : Process) (vs : List (VarType Double)) (a : Action Double) vs' out
      (hs : Stores s.file vs) (ha : a.Regular) (hstore : store vs a = some (vs', out)) :=
    step_simulates hs ha hstore
  exact Machine.run_simulation hstep hs hacts hstore

theorem exists_run_store (vs : List (VarType Double)) {acts : List (Action Double)}
    (hacts : ∀ a ∈ acts, a.Regular) : ∃ vs' outs, Machine.run store vs acts = some (vs', outs) := by
  have htotal (vs : List (VarType Double)) (a : Action Double) (ha : a.Regular) :
      ∃ next, store vs a = some next := by
    cases a with
    | write rootVars writing =>
      cases writing with
      | fails n => exact absurd rfl (ha.2 n)
      | _ => exact ⟨_, rfl⟩
    | _ => exact ⟨_, rfl⟩
  obtain ⟨⟨vs', outs⟩, hstore⟩ := Machine.run_total_of htotal vs hacts
  exact ⟨vs', outs, hstore⟩

/-- The file is as good as a variable. -/
theorem run_refines_store {s : Process} {vs : List (VarType Double)} (hs : Stores s.file vs)
    {acts : List (Action Double)} (hacts : ∀ a ∈ acts, a.Regular) :
    ∃ s' vs' outs, Machine.run step s acts = some (s', outs) ∧
      Machine.run store vs acts = some (vs', outs) ∧ Stores s'.file vs' := by
  obtain ⟨vs', outs, hstore⟩ := exists_run_store vs hacts
  obtain ⟨s', hrun, hs'⟩ := run_simulates hs hacts hstore
  exact ⟨s', vs', outs, hrun, hstore, hs'⟩

/-- A write that cannot open the file leaves the settings of the one before. -/
theorem run_refines_store_gain :
    ∃ s' vs' outs,
      Machine.run step ⟨none, ⟨.utf8, .bracket⟩⟩ [.write [gain ⟨5#32, 0#32, 10#32⟩] .succeeds,
          .write [gain ⟨1#32, 0#32, 3#32⟩] .cannotOpen, .read []] = some (s', outs) ∧
      Machine.run store [] [.write [gain ⟨5#32, 0#32, 10#32⟩] .succeeds,
          .write [gain ⟨1#32, 0#32, 3#32⟩] .cannotOpen, .read []] = some (vs', outs) ∧
      Stores s'.file vs' := by
  have hsave (r : Ranged (BitVec 32)) : AllSaveable [gain r] := ⟨.inr ⟨by decide, trivial⟩, trivial⟩
  refine @run_refines_store _ _ _ _ _ stores_none _ fun a ha => ?_
  simp only [List.mem_cons, List.not_mem_nil, or_false] at ha
  obtain rfl | rfl | rfl := ha
  · exact ⟨hsave _, fun n h => nomatch h⟩
  · exact ⟨hsave _, fun n h => nomatch h⟩
  · trivial

theorem run_store_quiet (vs : List (VarType Double)) {acts : List (Action Double)}
    (hacts : ∀ a ∈ acts, a.Regular) (h : ∀ rootVars, .write rootVars .succeeds ∉ acts) :
    ∃ outs, Machine.run store vs acts = some (vs, outs) := by
  induction acts with
  | nil => exact ⟨[], rfl⟩
  | cons a acts ih =>
    obtain ⟨ha, hacts⟩ := List.forall_mem_cons.mp hacts
    obtain ⟨outs, hrest⟩ := ih hacts fun rootVars hmem => h rootVars (by simp [hmem])
    cases a with
    | write rootVars writing =>
      cases writing with
      | cannotOpen => exact ⟨_, Machine.run_cons.mpr ⟨vs, _, outs, rfl, hrest, rfl⟩⟩
      | fails n => exact absurd rfl (ha.2 n)
      | succeeds => exact absurd List.mem_cons_self (h rootVars)
    | read existing_nodes => exact ⟨_, Machine.run_cons.mpr ⟨vs, _, outs, rfl, hrest, rfl⟩⟩
    | openOther file tag => exact ⟨_, Machine.run_cons.mpr ⟨vs, _, outs, rfl, hrest, rfl⟩⟩

/-- Settings that have been written are read into a tree of their shape,
whatever has been read and opened in between. -/
theorem run_write_read {s : Process} {vs₀ vs ws : List (VarType Double)} (hs : Stores s.file vs₀)
    (hvs : AllSaveable vs) (hload : AllLoad vs ws) (earlier quiet : List (Action Double))
    (hearlier : ∀ a ∈ earlier, a.Regular) (hregular : ∀ a ∈ quiet, a.Regular)
    (hquiet : ∀ rootVars, .write rootVars .succeeds ∉ quiet) :
    ∃ s' outs us,
      Machine.run step s (earlier ++ .write vs .succeeds :: (quiet ++ [.read ws])) =
          some (s', outs ++ [some us]) ∧
        allSettings us = allSettings vs := by
  obtain ⟨us, hrestore, hsettings⟩ := restoreAll_of_allLoad hload
  have hacts : ∀ a ∈ earlier ++ .write vs .succeeds :: (quiet ++ [.read ws]), a.Regular := by
    intro a ha
    simp only [List.mem_append, List.mem_cons, List.not_mem_nil, or_false] at ha
    obtain ha | rfl | ha | rfl := ha
    · exact hearlier a ha
    · exact ⟨hvs, fun n h => nomatch h⟩
    · exact hregular a ha
    · trivial
  obtain ⟨vs₁, outs₁, hearlier'⟩ := exists_run_store vs₀ hearlier
  obtain ⟨outs₂, hquiet'⟩ := run_store_quiet vs hregular hquiet
  have hread : Machine.run store vs [.read ws] = some (vs, [some us]) :=
    Machine.run_cons.mpr ⟨vs, some us, [], by simp [store, hrestore, Children.result], rfl, rfl⟩
  have hrest := Machine.run_append.mpr ⟨vs, outs₂, [some us], hquiet', hread, rfl⟩
  have hwrite : store vs₁ (.write vs .succeeds) = some (vs, none) := rfl
  have hlater := Machine.run_cons.mpr ⟨vs, none, outs₂ ++ [some us], hwrite, hrest, rfl⟩
  have hstore := Machine.run_append.mpr ⟨vs₁, outs₁, _, hearlier', hlater, rfl⟩
  obtain ⟨s', hrun, -⟩ := run_simulates hs hacts hstore
  exact ⟨s', outs₁ ++ none :: outs₂, us, by simpa using hrun, hsettings⟩

theorem run_write_read_gain :
    ∃ s' outs us,
      Machine.run step ⟨none, ⟨.utf8, .bracket⟩⟩
          ([] ++ .write [gain ⟨5#32, 0#32, 10#32⟩] .succeeds ::
            ([.openOther none (str "a")] ++ [.read [gain ⟨1#32, INT_MIN, INT_MAX⟩]])) =
        some (s', outs ++ [some us]) ∧
      allSettings us = allSettings [gain ⟨5#32, 0#32, 10#32⟩] := by
  have hsave : AllSaveable [gain ⟨5#32, 0#32, 10#32⟩] := ⟨.inr ⟨by decide, trivial⟩, trivial⟩
  have hload : AllLoad [gain ⟨5#32, 0#32, 10#32⟩] [gain ⟨1#32, INT_MIN, INT_MAX⟩] :=
    ⟨by decide, by simp, ⟨by decide, rfl, ⟨by decide, by decide, by decide⟩, rfl⟩, trivial⟩
  refine run_write_read stores_none hsave hload [] _ (by simp) (fun a ha => ?_) (by simp)
  rw [List.mem_singleton.mp ha]
  exact ⟨(fun buf hbuf => nomatch hbuf), fun buf hbuf => nomatch hbuf⟩

end LARCmaCS.VarTypes
