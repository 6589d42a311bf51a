import LARCmaCS.Xml.RoundTrip

/-!
# XML files

`writeToFile`, `parseFile` and `openFileHelper` of `xmlParser.cpp`. A file is
the list of its bytes, and whether it can be written is up to the system
(`Writing`). The header that `writeToFile` puts in front of the tree
is itself an element for the parser, with the tree in it; a file that has been
written is opened as the same tree (`openFileHelper_fileBytes`).
-/

namespace LARCmaCS.Xml

/-- The static variables of the parser that change. -/
structure Globals where
  XML_ByteTable : ByteTable
  docTypeClose : DocTypeClose

-- ---------------------------------------------------------------------------
-- Writing
-- ---------------------------------------------------------------------------

def byteOrderMark : List Byte := [0xef#8, 0xbb#8, 0xbf#8]

def xmlHeader (encoding : List Byte) : List Byte :=
  str "<?xml version=\"1.0\" encoding=\"" ++ encoding ++ str "\"?>\n"

def XMLNode.fileBytes (g : Globals) (x : XMLNode) (encoding : Option (List Byte)) (nFormat : Int) :
    List Byte :=
  let t := x.createXMLString g.XML_ByteTable nFormat
  if x.isDeclaration then
    if g.XML_ByteTable = .utf8 then byteOrderMark ++ t else t
  else
    match encoding with
    | none => byteOrderMark ++ (xmlHeader (str "utf-8") ++ t)
    | some encoding =>
      if g.XML_ByteTable = .utf8 then byteOrderMark ++ (xmlHeader (str "utf-8") ++ t)
      else xmlHeader encoding ++ t

inductive Writing where
  | cannotOpen
  /-- No more than `n` bytes get into the file. -/
  | fails (n : Nat)
  | succeeds

/-- What is returned, and the file afterwards. To `fwrite` an empty string counts
as an error. -/
def XMLNode.writeToFile (g : Globals) (x : XMLNode) (encoding : Option (List Byte)) (nFormat : Int)
    (writing : Writing) (file : Option (List Byte)) : XMLError × Option (List Byte) :=
  let bytes := x.fileBytes g encoding nFormat
  match writing with
  | .cannotOpen => (.eXMLErrorCannotOpenWriteFile, file)
  | .fails n => (.eXMLErrorCannotWriteFile, some (bytes.take n))
  | .succeeds =>
    (if x.createXMLString g.XML_ByteTable nFormat = [] then .eXMLErrorCannotWriteFile
      else .eXMLErrorNone, some bytes)

-- ---------------------------------------------------------------------------
-- Reading
-- ---------------------------------------------------------------------------

/-- The last bytes of a character begin with 10, as far as there are any; `n` of them are due. -/
def matchesUTF8 : (n : Nat) → List Byte → Bool
  | _, [] => true
  | n + 1, b :: s => b &&& 0xc0#8 = 0x80#8 && matchesUTF8 n s
  | 0, b :: s => b = 0#8 || matchesUTF8 (ByteTable.utf8.len b - 1) s

def encodingIsUTF8 (bb : List Byte) : Bool :=
  match tcsstr (str "encoding") bb with
  | none => true
  | some b =>
    match (b.drop 8).dropWhile isSPACECHAR with
    | [] => true
    | equals :: b =>
      if equals ≠ chr '=' then true else
      match b.dropWhile isSPACECHAR with
      | [] => true
      | quote :: b =>
        if quote ≠ 39#8 && quote ≠ 34#8 then true else
        let b := b.dropWhile isSPACECHAR
        tcsnicmp (str "utf-8") b || tcsnicmp (str "utf8") b

/-- `buf` has 200 bytes at most. -/
def guessUTF8ParsingParameterValue (buf : List Byte) : Bool :=
  if buf.length < 25 then false
  else if byteOrderMark.isPrefixOf buf then true
  else matchesUTF8 0 buf && encodingIsUTF8 (cString buf)

def fileText (buf : List Byte) : List Byte :=
  let headerSz := if byteOrderMark.isPrefixOf buf then 3 else 0
  cString (buf.drop headerSz)

/-- `none` for the file is one that cannot be opened. There is no result where
the end of the string cuts off a character: the parser goes on behind it. -/
def parseFile (g : Globals) (file : Option (List Byte)) (tag : List Byte) : Option XMLResults :=
  match file with
  | none => some ⟨none, .eXMLErrorFileNotFound, g.docTypeClose⟩
  | some [] => some ⟨none, .eXMLErrorEmpty, g.docTypeClose⟩
  | some buf =>
    let text := fileText buf
    if wholeCharacters g.XML_ByteTable text then parseString g.XML_ByteTable g.docTypeClose text tag
    else none

def createXMLTopNode (lpszName : List Byte) : XMLNode := ⟨lpszName, false, [], []⟩

def guessTable (g : Globals) : (file : Option (List Byte)) → Globals
  | none => g
  | some buf =>
    { g with
      XML_ByteTable := if guessUTF8ParsingParameterValue (buf.take 200) then .utf8 else .ascii }

/-- An error of any kind gives an empty node with the name. -/
def openFileHelper (g : Globals) (file : Option (List Byte)) (tag : List Byte) :
    Option (XMLNode × Globals) :=
  let g := guessTable g file
  (parseFile g file tag).map fun pResults =>
    let node :=
      match pResults.error, pResults.node with
      | .eXMLErrorNone, some node => node
      | _, _ => createXMLTopNode tag
    (node, { g with docTypeClose := pResults.docTypeClose })

/-- The parser does not leave the string of such a file. -/
structure StaysInside (file : Option (List Byte)) : Prop where
  whole : ∀ buf ∈ file, wholeCharacters .utf8 (fileText buf)
  docTypes : ∀ buf ∈ file, DocTypesEnd (fileText buf)

theorem wholeCharacters_of_utf8 {s : List Byte} (h : wholeCharacters .utf8 s) (t : ByteTable) :
    wholeCharacters t s := by
  have hlen : ∀ b : Byte, ByteTable.ascii.len b ≤ 1 := by decide
  cases t with
  | utf8 => exact h
  | ascii =>
    induction s with
    | nil => rfl
    | cons b s ih =>
      rw [wholeCharacters, Bool.and_eq_true, decide_eq_true_eq] at h ⊢
      exact ⟨(hlen b).trans (by omega), ih h.2⟩

theorem exists_openFileHelper (g : Globals) {file : Option (List Byte)} (h : StaysInside file)
    (tag : List Byte) : ∃ node g', openFileHelper g file tag = some (node, g') := by
  have hparse : ∃ results, parseFile (guessTable g file) file tag = some results := by
    unfold parseFile
    split
    · exact ⟨_, rfl⟩
    · exact ⟨_, rfl⟩
    · next buf _ =>
      rw [if_pos (wholeCharacters_of_utf8 (h.whole buf rfl) _)]
      exact exists_parseString _ _ (h.docTypes buf rfl) tag
  obtain ⟨results, hresults⟩ := hparse
  exact ⟨_, _, by rw [openFileHelper, hresults]; rfl⟩

-- ---------------------------------------------------------------------------
-- Both tables write the same
-- ---------------------------------------------------------------------------

theorem encodedFrom_ascii {n : Nat} {s : List Byte} (h : encodedFrom .utf8 n s) :
    Encoded .ascii s := by
  induction s generalizing n with
  | nil => rfl
  | cons b s ih =>
    have hlen : ∀ b : Byte, ByteTable.ascii.len b - 1 = 0 := by decide
    cases n with
    | zero =>
      obtain ⟨h0, hs⟩ := encoded_cons.mp h
      exact encoded_cons.mpr ⟨h0, by rw [hlen]; exact ih hs⟩
    | succ n =>
      obtain ⟨hb, hs⟩ := encodedFrom_succ.mp h
      refine encoded_cons.mpr ⟨?_, by rw [hlen]; exact ih hs⟩
      rintro rfl
      exact absurd hb (by decide)

theorem encoded_of_utf8 {s : List Byte} (h : Encoded .utf8 s) (t : ByteTable) : Encoded t s := by
  cases t with
  | utf8 => exact h
  | ascii => exact encodedFrom_ascii h

theorem toXMLString_table {s : List Byte} (h : Encoded .utf8 s) (t : ByteTable) :
    toXMLString t s = toXMLString .utf8 s := by
  rw [toXMLString_eq h, toXMLString_eq (encoded_of_utf8 h t)]

theorem lengthXMLString_table {s : List Byte} (h : Encoded .utf8 s) (t : ByteTable) :
    lengthXMLString t s = lengthXMLString .utf8 s := by
  rw [← length_toXMLString h, ← length_toXMLString (encoded_of_utf8 h t), toXMLString_table h]

theorem startTag_table {x : XMLNode} (h : ∀ a ∈ x.pAttribute, a.WellFormed .utf8) (t : ByteTable)
    (nFormat : Option Nat) : startTag t nFormat x = startTag .utf8 nFormat x := by
  have hattributes : x.pAttribute.flatMap (attributeString t) =
      x.pAttribute.flatMap (attributeString .utf8) := by
    refine List.flatMap_congr fun a ha => ?_
    rw [attributeString, attributeString]
    cases hvalue : a.lpszValue with
    | none => rfl
    | some value => simp only [toXMLString_table ((h a ha).value value hvalue)]
  rw [startTag, startTag, hattributes]

theorem createXMLStringR_table_of_contents {x : XMLNode} (h : x.WellFormed .utf8) {t : ByteTable}
    (hcontents : ∀ f g, contentsString t f g x.contents = contentsString .utf8 f g x.contents)
    (nFormat : Option Nat) : x.createXMLStringR t nFormat = x.createXMLStringR .utf8 nFormat := by
  simp only [x.createXMLStringR_eq, hcontents, startTag_table (x.wellFormed_iff.mp h).2.2.1 t]

theorem contentsString_table {cs : List XMLContent} (h : contentsWellFormed .utf8 cs) (t : ByteTable)
    (f g : Option Nat) : contentsString t f g cs = contentsString .utf8 f g cs := by
  induction cs using contents_induction generalizing f g with
  | nil => rfl
  | text value cs ih =>
    obtain ⟨hvalue, -, hcs⟩ := h
    rw [contentsString, contentsString, ih hcs, textString, textString, toXMLString_table hvalue,
      lengthXMLString_table hvalue]
  | clear openTag value closeTag cs ih => rw [contentsString, contentsString, ih h.2]
  | child node cs ihnode ih =>
    have hnode := (node.wellFormed_iff.mp h.1).2.2.2
    rw [contentsString, contentsString, ih h.2,
      createXMLStringR_table_of_contents h.1 (ihnode hnode)]

theorem createXMLString_table {x : XMLNode} (h : x.WellFormed .utf8) (t : ByteTable) (nFormat : Int) :
    x.createXMLString t nFormat = x.createXMLString .utf8 nFormat :=
  createXMLStringR_table_of_contents h
    (contentsString_table (x.wellFormed_iff.mp h).2.2.2 t) _

-- ---------------------------------------------------------------------------
-- No terminator in the text
-- ---------------------------------------------------------------------------

theorem nul_notMem_escape {t : ByteTable} {s : List Byte} (h : Encoded t s) :
    0#8 ∉ s.flatMap escape := by
  have hescape : ∀ {b : Byte}, b ≠ 0#8 → 0#8 ∉ escape b := by decide
  rw [List.mem_flatMap]
  rintro ⟨b, hb, hmem⟩
  exact hescape (fun hzero => nul_notMem_of_encoded h (hzero ▸ hb)) hmem

theorem nul_notMem_name {name : List Byte} (h : IsName name) : 0#8 ∉ name := by
  intro hmem
  exact absurd (h.nameByte _ hmem) (by decide)

theorem nul_notMem_attributesText {t : ByteTable} {attributes : List XMLAttribute}
    (h : ∀ a ∈ attributes, a.WellFormed t) : 0#8 ∉ attributesText attributes := by
  have hquote : (34#8 : Byte) ≠ 0#8 ∧ chr '=' ≠ 0#8 ∧ chr ' ' ≠ 0#8 := by decide
  rw [attributesText, List.mem_flatMap]
  rintro ⟨a, ha, hmem⟩
  have hname := nul_notMem_name (h a ha).name
  rw [attributeBody] at hmem
  cases hvalue : a.lpszValue with
  | none => simp [hvalue, hname, hquote.2.2.symm] at hmem
  | some value =>
    have hescape := nul_notMem_escape ((h a ha).value value hvalue)
    simp only [hvalue, List.mem_cons, List.mem_append, List.not_mem_nil, or_false] at hmem
    simp [hname, hescape, hquote.1.symm, hquote.2.1.symm, hquote.2.2.symm] at hmem

theorem nul_notMem_spaces {w : List Byte} (hw : ∀ b ∈ w, isSPACECHAR b) : 0#8 ∉ w := by
  intro hmem
  exact absurd (hw _ hmem) (by decide)

theorem nul_notMem_of_contents {t : ByteTable} {x : XMLNode} (h : x.WellFormed t)
    (hcontents : ∀ f g, 0#8 ∉ contentsString t f g x.contents) (nFormat : Option Nat) :
    0#8 ∉ x.createXMLStringR t nFormat := by
  obtain ⟨hname, -, hattributes, -⟩ := x.wellFormed_iff.mp h
  have hshape := createXMLStringR_append h nFormat []
  rw [List.append_nil] at hshape
  have hmarks : chr '<' ≠ 0#8 ∧ chr '>' ≠ 0#8 ∧ chr '/' ≠ 0#8 := by decide
  have hspaces := nul_notMem_spaces (indentation_spaces nFormat)
  have hline := nul_notMem_spaces (newline_spaces nFormat)
  have hrest : 0#8 ∉ elementRest t nFormat x [] := by
    rw [elementRest]
    split
    · simp [hline, hmarks.2.1.symm, hmarks.2.2.symm]
    · simp [hline, hspaces, hcontents, nul_notMem_name hname.toIsName, hmarks.1.symm,
        hmarks.2.1.symm, hmarks.2.2.symm]
  rw [hshape]
  simp [hspaces, hmarks.1.symm, nul_notMem_name hname.toIsName, hrest,
    nul_notMem_attributesText hattributes]

theorem nul_notMem_clearTag {openTag closeTag : List Byte}
    (h : ⟨openTag, closeTag⟩ ∈ XMLClearTags .bracket) : 0#8 ∉ openTag ∧ 0#8 ∉ closeTag := by
  simp only [XMLClearTags, List.mem_cons, List.not_mem_nil, or_false, ALLXMLClearTag.mk.injEq] at h
  obtain ⟨rfl, rfl⟩ | ⟨rfl, rfl⟩ | ⟨rfl, rfl⟩ | ⟨rfl, rfl⟩ | ⟨rfl, rfl⟩ := h <;> decide

theorem nul_notMem_contentsString {t : ByteTable} {cs : List XMLContent} (h : contentsWellFormed t cs)
    (f g : Option Nat) : 0#8 ∉ contentsString t f g cs := by
  have hspaces := fun f => nul_notMem_spaces (indentation_spaces f)
  have hline := nul_notMem_spaces (newline_spaces f)
  induction cs using contents_induction generalizing f g with
  | nil => simp [contentsString]
  | text value cs ih =>
    obtain ⟨hvalue, -, hcs⟩ := h
    have hescape := nul_notMem_escape hvalue
    rw [contentsString, textString, List.mem_append, not_or]
    refine ⟨?_, ih hcs f g hline⟩
    split
    · simp
    · simp [hspaces, hline, toXMLString_eq hvalue, -List.mem_flatMap, hescape]
  | clear openTag value closeTag cs ih =>
    obtain ⟨hclear, hcs⟩ := h
    obtain ⟨hopen, hclose⟩ := nul_notMem_clearTag hclear.tag
    rw [contentsString, clearString, List.mem_append, not_or]
    refine ⟨?_, ih hcs f g hline⟩
    split
    · simp [hline, hclear.no_nul, hclose]
    · simp [hspaces, hline, hclear.no_nul, hopen, hclose]
  | child node cs ihnode ih =>
    have hnode := (node.wellFormed_iff.mp h.1).2.2.2
    have hchild := nul_notMem_of_contents h.1
      (fun f g => ihnode hnode f g (nul_notMem_spaces (newline_spaces f))) g
    rw [contentsString, List.mem_append, not_or]
    exact ⟨hchild, ih h.2 f g hline⟩

theorem nul_notMem_createXMLString {t : ByteTable} {x : XMLNode} (h : x.WellFormed t)
    (nFormat : Int) : 0#8 ∉ x.createXMLString t nFormat :=
  nul_notMem_of_contents h (nul_notMem_contentsString (x.wellFormed_iff.mp h).2.2.2) _

-- ---------------------------------------------------------------------------
-- The header
-- ---------------------------------------------------------------------------

def headerAttributes : List XMLAttribute :=
  [⟨str "version", some (str "1.0")⟩, ⟨str "encoding", some (str "utf-8")⟩]

theorem xmlHeader_utf8 :
    xmlHeader (str "utf-8") =
      chr '<' :: chr '?' ::
        (str "xml" ++ (attributesText headerAttributes ++ [chr '?', chr '>', 10#8])) := by
  decide

theorem wellFormed_headerAttributes {t : ByteTable} : ∀ a ∈ headerAttributes, a.WellFormed t := by
  have hname : IsName (str "version") ∧ IsName (str "encoding") :=
    ⟨⟨by decide, by decide⟩, ⟨by decide, by decide⟩⟩
  have hvalue : Encoded t (str "1.0") ∧ Encoded t (str "utf-8") := by
    cases t <;> decide
  intro a ha
  simp only [headerAttributes, List.mem_cons, List.not_mem_nil, or_false] at ha
  obtain rfl | rfl := ha
  · exact .valued hname.1 hvalue.1
  · exact .valued hname.2 hvalue.2

section Opening

variable {t : ByteTable} {d : XMLNode} {hasParent : Bool} {x : XML} {r : Returned} {node : XMLNode}

/-- The mark in front of `>` is no attribute. -/
theorem parses_mark (hd : d.isDeclaration = true) {s : List Byte}
    (h : Parses t ⟨d, hasParent, .eOutsideTag, { x with lpXML := s, lpszText := some s }⟩ r) :
    Parses t ⟨d, hasParent, .eAttribName, { x with lpXML := chr '?' :: chr '>' :: s }⟩ r := by
  have htoken : getNextToken t x.docTypeClose (chr '?' :: chr '>' :: s) =
      ⟨.eTokenText, chr '?' :: chr '>' :: s, 1, chr '>' :: s⟩ := by
    rw [getNextToken_of_ne (by decide) (by decide) (by decide)]
    cases t <;> rfl
  refine .goOn (g := ⟨d, hasParent, .eAttribEquals (chr '?' :: chr '>' :: s) 1,
    { x with lpXML := chr '>' :: s }⟩) (by simp [parseToken, htoken, attribName]) (.goOn ?_ h)
  simp [parseToken, getNextToken_close, attribEquals, withoutMark, hd]

theorem parses_header {s : List Byte} {y : XML}
    (h : Parses t ⟨⟨str "xml", true, headerAttributes, []⟩, true, .eOutsideTag,
      { x with lpXML := s, lpszText := some s }⟩ ⟨false, node, y⟩) {u : List Byte}
    (hu : u = chr '<' :: chr '?' :: (str "xml" ++ (attributesText headerAttributes ++
      chr '?' :: chr '>' :: s))) :
    Parses t ⟨d, hasParent, .eOutsideTag, { x with lpXML := u, lpszText := some u }⟩
      ⟨false, d.add (.child node), y⟩ := by
  have hname : IsName (str "xml") := ⟨by decide, by decide⟩
  have hvalued : ∀ a ∈ headerAttributes, a.lpszValue.isSome := by decide
  have hends : EndsName (attributesText headerAttributes ++ chr '?' :: chr '>' :: s) := .inl rfl
  have hchild := parses_attributes (d := ⟨str "xml", true, [], []⟩) wellFormed_headerAttributes
    (.inl hvalued) (parses_mark (x := { x with lpszText := none }) rfl h)
  have hbegin := parses_of_token_eq (getNextToken_afterName _) hchild
  refine .callRet (c := ⟨d, hasParent⟩) ?_ hbegin (by simp [addParsedChild])
  have htext : afterText t d u { x with
      lpXML := str "xml" ++ (attributesText headerAttributes ++ chr '?' :: chr '>' :: s)
      lpszText := some u } (openTag t hasParent true) = _ :=
    afterText_pending (Pending.spaces t [] (by simp)) (by simp)
  simp [parseToken, hu, getNextToken_declaration, outsideTag] at htext ⊢
  rw [htext]
  simp [openTag, getNextToken_name hname hends, stringDup_append hname.ne_nil]

theorem parses_document (docTypeClose : DocTypeClose) (h : node.WellFormed t) (nFormat : Int) :
    Parses t (documentFrame docTypeClose (xmlHeader (str "utf-8") ++ node.createXMLString t nFormat))
      ⟨false, ⟨[], false, [], [.child ⟨str "xml", true, headerAttributes, [.child node.trimmed]⟩]⟩,
        { (documentFrame docTypeClose []).xml with
          lpszText := some (newline (if nFormat = 0 then none else some 0)) }⟩ := by
  have hroot := @parses_root t ⟨str "xml", true, headerAttributes, []⟩ true
    (documentFrame docTypeClose []).xml node [10#8] (by decide) h rfl (.inl rfl)
    (if nFormat = 0 then none else some 0) _ rfl
  exact parses_header hroot (by rw [xmlHeader_utf8, XMLNode.createXMLString]; simp)

theorem parseString_document {tag : List Byte} (docTypeClose : DocTypeClose) (h : node.WellFormed t)
    (nFormat : Int) (htag : tcsicmp node.lpszName tag) (hxml : ¬tcsicmp (str "xml") tag) :
    parseString t docTypeClose (xmlHeader (str "utf-8") ++ node.createXMLString t nFormat) tag =
      some ⟨some node.trimmed, .eXMLErrorNone, docTypeClose⟩ := by
  have hname := (node.wellFormed_iff.mp h).1
  have htag0 : tag ≠ [] := by
    rintro rfl
    simp [tcsicmp, hname.ne_nil] at htag
  have hfind : findTag tag [.child node.trimmed] = some node.trimmed := by
    rw [← lpszName_trimmed] at htag
    cases hnode : node.trimmed
    rw [hnode] at htag
    simp [findTag, htag]
  have hrun : parseXMLElement t
      ((xmlHeader (str "utf-8") ++ node.createXMLString t nFormat).length + 1) _ = _ :=
    parseXMLElement_eq (parses_document docTypeClose h nFormat)
  have hhead : findFirstTag tag ⟨str "xml", true, headerAttributes, [.child node.trimmed]⟩
      .eXMLErrorNone = (some node.trimmed, .eXMLErrorNone) := by
    simp [findFirstTag, htag0, hxml, hfind]
  rw [parseString, hrun]
  simp only [Option.map_some, documentFrame, skipHead_child, hhead]

end Opening

-- ---------------------------------------------------------------------------
-- The end of what has been written
-- ---------------------------------------------------------------------------

theorem wholeCharacters_append (t : ByteTable) {u : List Byte} (hu : ∀ b ∈ u, b < 0x80#8)
    (hlength : 3 ≤ u.length) (s : List Byte) : wholeCharacters t (s ++ u) := by
  have hshort : ∀ {b : Byte}, b < 0x80#8 → t.len b ≤ 1 := by cases t <;> decide
  have hlong : ∀ b : Byte, t.len b ≤ 4 := by cases t <;> decide
  have hlast {u : List Byte} (hu : ∀ b ∈ u, b < 0x80#8) : wholeCharacters t u := by
    induction u with
    | nil => rfl
    | cons b u ih =>
      obtain ⟨hb, hu⟩ := List.forall_mem_cons.mp hu
      rw [wholeCharacters, Bool.and_eq_true, decide_eq_true_eq]
      exact ⟨(hshort hb).trans (by omega), ih hu⟩
  induction s with
  | nil => exact hlast hu
  | cons b s ih =>
    rw [List.cons_append, wholeCharacters, Bool.and_eq_true, decide_eq_true_eq, List.length_append]
    exact ⟨(hlong b).trans (by omega), ih⟩

def EndsAscii (s : List Byte) : Prop := ∃ r b, s = r ++ [b] ∧ b < 0x80#8

theorem EndsAscii.append {s : List Byte} (h : EndsAscii s) (r : List Byte) : EndsAscii (r ++ s) := by
  obtain ⟨r', b, rfl, hb⟩ := h
  exact ⟨r ++ r', b, by rw [List.append_assoc], hb⟩

theorem IsName.endsAscii {name : List Byte} (h : IsName name) : EndsAscii name := by
  have hlast := List.dropLast_append_getLast h.ne_nil
  exact ⟨_, _, hlast.symm, (nameByte_iff (h.nameByte _ (List.getLast_mem h.ne_nil))).2.1⟩

theorem endsAscii_attributeBody {t : ByteTable} {a : XMLAttribute} (h : a.WellFormed t) :
    EndsAscii (attributeBody a) := by
  unfold attributeBody
  split
  · next value _ =>
    exact ⟨a.lpszName ++ chr '=' :: 34#8 :: value.flatMap escape, 34#8, by simp, by decide⟩
  · exact h.name.endsAscii

theorem endsAscii_attributesText {t : ByteTable} {attributes : List XMLAttribute}
    (h : ∀ a ∈ attributes, a.WellFormed t) {s : List Byte} (hs : EndsAscii s) :
    EndsAscii (s ++ attributesText attributes) := by
  induction attributes generalizing s with
  | nil => simpa [attributesText] using hs
  | cons a attributes ih =>
    obtain ⟨ha, hattributes⟩ := List.forall_mem_cons.mp h
    have hbody := ih hattributes ((endsAscii_attributeBody ha).append (s ++ [chr ' ']))
    simpa [attributesText] using hbody

theorem ascii_newline (nFormat : Option Nat) : ∀ b ∈ newline nFormat, b < 0x80#8 := by
  have hspace : ∀ {b : Byte}, isSPACECHAR b → b < 0x80#8 := by decide
  exact fun b hb => hspace (newline_spaces nFormat b hb)

theorem ends_createXMLStringR {t : ByteTable} {x : XMLNode} (h : x.WellFormed t)
    (nFormat : Option Nat) :
    ∃ s u, x.createXMLStringR t nFormat = s ++ u ∧ 3 ≤ u.length ∧ ∀ b ∈ u, b < 0x80#8 := by
  obtain ⟨hname, -, hattributes, -⟩ := x.wellFormed_iff.mp h
  have hmarks : chr '<' < 0x80#8 ∧ chr '/' < 0x80#8 ∧ chr '>' < 0x80#8 := by decide
  have hline := ascii_newline nFormat
  have hshape := createXMLStringR_append h nFormat []
  rw [List.append_nil, elementRest] at hshape
  split at hshape
  · obtain ⟨r, b, hr, hb⟩ := endsAscii_attributesText hattributes hname.toIsName.endsAscii
    refine ⟨indentation nFormat ++ chr '<' :: r, b :: chr '/' :: chr '>' :: newline nFormat, ?_,
      by simp, ?_⟩
    · rw [hshape, ← List.append_assoc x.lpszName, hr]
      simp
    · simpa [hb, hmarks.2.1, hmarks.2.2] using hline
  · have hnameAscii : ∀ b ∈ x.lpszName, b < 0x80#8 := fun b hb => (nameByte_iff (hname.nameByte b hb)).2.1
    have hpos := List.length_pos_of_ne_nil hname.ne_nil
    refine ⟨indentation nFormat ++ chr '<' :: (x.lpszName ++ (attributesText x.pAttribute ++
      chr '>' :: (newline nFormat ++ (contentsString t nFormat (nFormat.map (· + 1)) x.contents ++
        indentation nFormat)))),
      chr '<' :: chr '/' :: (x.lpszName ++ chr '>' :: newline nFormat), ?_, ?_, ?_⟩
    · rw [hshape]
      simp
    · simp only [List.length_cons, List.length_append]
      omega
    · intro b hb
      simp only [List.mem_cons, List.mem_append] at hb
      obtain rfl | rfl | hb | rfl | hb := hb
      · exact hmarks.1
      · exact hmarks.2.1
      · exact hnameAscii b hb
      · exact hmarks.2.2
      · exact hline b hb

theorem wholeCharacters_document {t : ByteTable} {x : XMLNode} (h : x.WellFormed t) (header : List Byte)
    (nFormat : Int) : wholeCharacters t (header ++ x.createXMLString t nFormat) := by
  obtain ⟨s, u, hshape, hlength, hu⟩ := ends_createXMLStringR h (if nFormat = 0 then none else some 0)
  rw [XMLNode.createXMLString, hshape, ← List.append_assoc]
  exact wholeCharacters_append t hu hlength _

-- ---------------------------------------------------------------------------
-- Opening what has been written
-- ---------------------------------------------------------------------------

/-- What has been written is read as UTF-8, because of its first bytes. -/
theorem guessTable_fileBytes (g g' : Globals) {x : XMLNode} (h : x.isDeclaration = false)
    (nFormat : Int) :
    guessTable g' (some (x.fileBytes g none nFormat)) = { g' with XML_ByteTable := .utf8 } := by
  have hguess (s : List Byte) : guessUTF8ParsingParameterValue
      ((byteOrderMark ++ (xmlHeader (str "utf-8") ++ s)).take 200) = true := by
    have htake : (byteOrderMark ++ (xmlHeader (str "utf-8") ++ s)).take 200 =
        byteOrderMark ++ (xmlHeader (str "utf-8") ++ s.take 158) := rfl
    have hlen : ¬((byteOrderMark ++ (xmlHeader (str "utf-8") ++ s.take 158)).length < 25) := by
      simp [byteOrderMark, xmlHeader, str]
    have hmark : byteOrderMark.isPrefixOf
        (byteOrderMark ++ (xmlHeader (str "utf-8") ++ s.take 158)) := by
      simp
    rw [htake, guessUTF8ParsingParameterValue, if_neg hlen, if_pos hmark]
  simp [guessTable, XMLNode.fileBytes, h, hguess]

theorem fileText_fileBytes (g : Globals) {x : XMLNode} (h : x.WellFormed .utf8) (nFormat : Int) :
    fileText (x.fileBytes g none nFormat) =
      xmlHeader (str "utf-8") ++ x.createXMLString .utf8 nFormat := by
  obtain ⟨-, hdeclaration, -, -⟩ := x.wellFormed_iff.mp h
  have hnul : 0#8 ∉ xmlHeader (str "utf-8") ++ x.createXMLString .utf8 nFormat := by
    rw [List.mem_append, not_or]
    exact ⟨by decide, nul_notMem_createXMLString h nFormat⟩
  have hfile : x.fileBytes g none nFormat =
      byteOrderMark ++ (xmlHeader (str "utf-8") ++ x.createXMLString .utf8 nFormat) := by
    simp [XMLNode.fileBytes, hdeclaration, createXMLString_table h]
  have hmark (s : List Byte) : byteOrderMark.isPrefixOf (byteOrderMark ++ s) := by simp
  have hdrop (s : List Byte) : (byteOrderMark ++ s).drop 3 = s := rfl
  rw [hfile, fileText]
  simp only [hmark, if_true, hdrop, cString_eq hnul]

theorem staysInside_fileBytes (g : Globals) {x : XMLNode} (h : x.WellFormed .utf8) {nFormat : Int}
    (hformat : nFormat ≠ 0) : StaysInside (some (x.fileBytes g none nFormat)) := by
  refine ⟨fun buf hbuf => ?_, fun buf hbuf => ?_⟩ <;> obtain rfl := Option.mem_some_iff.mp hbuf
  · rw [fileText_fileBytes g h]
    exact wholeCharacters_document h _ nFormat
  · have hshape := createXMLStringR_append h (some 0) []
    rw [List.append_nil, elementRest] at hshape
    have hlast : (x.createXMLStringR .utf8 (some 0)).getLast? = some 10#8 := by
      rw [hshape]
      split <;> simp [newline, List.getLast?_cons]
    refine .inr ?_
    rw [fileText_fileBytes g h, XMLNode.createXMLString, if_neg hformat, List.getLast?_append, hlast]
    decide

/-- A file that has been written is opened as the same tree, whatever table it
was written with. -/
theorem openFileHelper_fileBytes (g g' : Globals) (tag : List Byte) (nFormat : Int)
    (node : XMLNode) (h : node.WellFormed .utf8) (htag : tcsicmp node.lpszName tag)
    (hxml : ¬tcsicmp (str "xml") tag) :
    openFileHelper g' (some (node.fileBytes g none nFormat)) tag =
      some (node.trimmed, { g' with XML_ByteTable := .utf8 }) := by
  obtain ⟨-, hdeclaration, -, -⟩ := node.wellFormed_iff.mp h
  have hparse := parseString_document g'.docTypeClose h nFormat htag hxml
  have hread : parseFile { g' with XML_ByteTable := .utf8 } (some (node.fileBytes g none nFormat)) tag =
      some ⟨some node.trimmed, .eXMLErrorNone, g'.docTypeClose⟩ := by
    rw [parseFile]
    · simp only [fileText_fileBytes g h, wholeCharacters_document h, if_true, hparse]
    · simp [XMLNode.fileBytes, hdeclaration, byteOrderMark]
  simp [openFileHelper, guessTable_fileBytes g g' hdeclaration, hread]

end LARCmaCS.Xml
