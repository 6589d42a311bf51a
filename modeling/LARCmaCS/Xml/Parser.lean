import LARCmaCS.Lib.Descent
import LARCmaCS.Xml.Node
import Mathlib.Data.List.DropRight

/-!
# Parsing XML

`GetNextToken`, `ParseXMLElement` and `parseString` of `xmlParser.cpp`, without
`APPROXIMATE_PARSING` and `STRICT_PARSING`. The body of the loop over the tokens
is `parseToken`; the recursion into a child is `parseXMLElement`. The parser
comes to an end (`exists_parseString`) unless a document type takes it behind
the end of the string, where it is stuck.
-/

namespace LARCmaCS.Xml

structure ALLXMLClearTag where
  lpszOpen : List Byte
  lpszClose : List Byte
  deriving DecidableEq

def docTypeOpen : List Byte := str "<!DOCTYPE"

/-- What closes `<!DOCTYPE`, the end of brackets once a document type has had
one of its own in it. -/
inductive DocTypeClose where
  | bracket
  | docTypeEnd
  deriving DecidableEq

def DocTypeClose.lpszClose : DocTypeClose → List Byte
  | .bracket => str ">"
  | .docTypeEnd => str "]>"

def XMLClearTags (docTypeClose : DocTypeClose) : List ALLXMLClearTag := [
  ⟨str "<![CDATA[", str "]]>"⟩,
  ⟨docTypeOpen, docTypeClose.lpszClose⟩,
  ⟨str "<PRE>", str "</PRE>"⟩,
  ⟨str "<Script>", str "</Script>"⟩,
  ⟨str "<!--", str "-->"⟩]

-- ---------------------------------------------------------------------------
-- Tokens
-- ---------------------------------------------------------------------------

inductive XMLTokenType where
  | eTokenText
  | eTokenQuotedText
  | eTokenTagStart
  | eTokenTagEnd
  | eTokenCloseTag
  | eTokenEquals
  | eTokenDeclaration
  | eTokenShortHandClose
  | eTokenClear (pClr : ALLXMLClearTag)
  | eTokenError
  deriving DecidableEq

/-- `pStr` is what begins with the token, `rest` what follows it. -/
structure NextToken where
  type : XMLTokenType
  pStr : List Byte
  cbToken : Nat
  rest : List Byte

/-- What follows the matching quote, when `n` bytes of a character are still to
be skipped. -/
def scanQuoted (t : ByteTable) (quote : Byte) : (n : Nat) → List Byte → Option (List Byte)
  | _, [] => none
  | n + 1, _ :: s => scanQuoted t quote n s
  | 0, ch :: s =>
    if ch = 0#8 then none
    else if ch = quote then some s
    else if ch = chr '<' then none
    else scanQuoted t quote (t.len ch - 1) s

/-- How many more bytes are text, and what follows them. A space that ends the
text is taken away. -/
def scanText (t : ByteTable) : (n : Nat) → List Byte → Nat × List Byte
  | _, [] => (0, [])
  | n + 1, _ :: s => ((scanText t n s).1 + 1, (scanText t n s).2)
  | 0, ch :: s =>
    if ch = 0#8 then (0, ch :: s)
    else if isSPACECHAR ch then (0, s)
    else if ch = chr '/' && s.head? = some (chr '>') then (0, ch :: s)
    else if ch = chr '<' || ch = chr '>' || ch = chr '=' then (0, ch :: s)
    else ((scanText t (t.len ch - 1) s).1 + 1, (scanText t (t.len ch - 1) s).2)

def textToken (t : ByteTable) (ch : Byte) (s : List Byte) : NextToken :=
  let (cb, rest) := scanText t (t.len ch - 1) s
  ⟨.eTokenText, ch :: s, cb + 1, rest⟩

def standardToken (t : ByteTable) (ch : Byte) (s : List Byte) : NextToken :=
  if ch = 34#8 || ch = 39#8 then
    match scanQuoted t ch 0 s with
    | some rest => ⟨.eTokenQuotedText, ch :: s, s.length + 1 - rest.length, rest⟩
    | none => textToken t ch s
  else if ch = chr '=' then ⟨.eTokenEquals, ch :: s, 1, s⟩
  else if ch = chr '>' then ⟨.eTokenCloseTag, ch :: s, 1, s⟩
  else if ch = chr '<' then
    if s.head? = some (chr '/') then ⟨.eTokenTagEnd, ch :: s, 2, s.tail⟩
    else if s.head? = some (chr '?') then ⟨.eTokenDeclaration, ch :: s, 2, s.tail⟩
    else ⟨.eTokenTagStart, ch :: s, 1, s⟩
  else if ch = chr '/' && s.head? = some (chr '>') then
    ⟨.eTokenShortHandClose, ch :: s, 2, s.tail⟩
  else textToken t ch s

def getNextToken (t : ByteTable) (docTypeClose : DocTypeClose) (lpXML : List Byte) : NextToken :=
  match lpXML.dropWhile isSPACECHAR with
  | [] => ⟨.eTokenError, [], 0, []⟩
  | ch :: s =>
    if ch = 0#8 then ⟨.eTokenError, [], 0, ch :: s⟩
    else
      match (XMLClearTags docTypeClose).find? fun tag => tcsnicmp tag.lpszOpen (ch :: s) with
      | some tag => ⟨.eTokenClear tag, ch :: s, 0, (ch :: s).drop tag.lpszOpen.length⟩
      | none => standardToken t ch s

-- ---------------------------------------------------------------------------
-- Elements
-- ---------------------------------------------------------------------------

/-- `lpXML` begins at `nIndex`. -/
structure XML where
  lpXML : List Byte
  lpszText : Option (List Byte)
  error : XMLError
  lpEndTag : List Byte
  cbEndTag : Nat
  docTypeClose : DocTypeClose

/-- Whether the tags differ. -/
def myTagCompare (cclose copen : List Byte) : Bool :=
  if cclose = [] then true
  else if !tcsnicmp cclose copen then true
  else
    match copen[cclose.length]? with
    | none => true
    | some c => !(isSPACECHAR c || c = chr '/' || c = chr '<' || c = chr '>' || c = chr '=')

def tcsstr (pattern : List Byte) : List Byte → Option (List Byte)
  | [] => if pattern = [] then some [] else none
  | ch :: s => if pattern.isPrefixOf (ch :: s) then some (ch :: s) else tcsstr pattern s

def scanDocType (t : ByteTable) : (n : Nat) → List Byte → Option (List Byte)
  | _, [] => none
  | n + 1, _ :: s => scanDocType t n s
  | 0, ch :: s =>
    if ch = 0#8 then none
    else if ch = chr '<' || ch = chr '>' then some (ch :: s)
    else scanDocType t (t.len ch - 1) s

def findClose (t : ByteTable) (pClear : ALLXMLClearTag) (lpXML : List Byte) :
    Option (List Byte × List Byte) :=
  if pClear.lpszOpen = docTypeOpen then
    match scanDocType t 0 lpXML with
    | none => none
    | some s =>
      if s.head? = some (chr '<') then
        (tcsstr DocTypeClose.docTypeEnd.lpszClose lpXML).map fun lpszTemp =>
          (DocTypeClose.docTypeEnd.lpszClose, lpszTemp)
      else some (pClear.lpszClose, s)
  else (tcsstr pClear.lpszClose lpXML).map fun lpszTemp => (pClear.lpszClose, lpszTemp)

def docTypeCloseAfter (t : ByteTable) (pClear : ALLXMLClearTag) (lpXML : List Byte)
    (docTypeClose : DocTypeClose) : DocTypeClose :=
  if pClear.lpszOpen = docTypeOpen && (scanDocType t 0 lpXML).bind List.head? = some (chr '<') then
    .docTypeEnd
  else docTypeClose

/-- The clear tag that begins at `nIndex`, with no node for an error. There is
no result when `nIndex` comes to stand behind the terminator: `>` has been
found, but the length of `]>` is added. -/
def parseClearTag (t : ByteTable) (d : XMLNode) (x : XML) (pClear : ALLXMLClearTag) :
    Option (Option XMLNode × XML) :=
  let x' := { x with docTypeClose := docTypeCloseAfter t pClear x.lpXML x.docTypeClose }
  match findClose t pClear x.lpXML with
  | some (close, lpszTemp) =>
    let cbTemp := x.lpXML.length - lpszTemp.length
    if x.lpXML.length < cbTemp + close.length then none
    else
      some (d.add (.clear pClear.lpszOpen (stringDup x.lpXML cbTemp) close),
        { x' with lpXML := x.lpXML.drop (cbTemp + close.length) })
  | none => some (none, { x' with error := .eXMLErrorUnmatchedEndClearTag })

def trim (s : List Byte) : List Byte := (s.dropWhile isSPACECHAR).rdropWhile isSPACECHAR

/-- `none` for an error. -/
def maybeAddTxT (t : ByteTable) (d : XMLNode) (x : XML) (tokenPStr : List Byte) :
    Option XMLNode × XML :=
  match x.lpszText with
  | none => (some d, x)
  | some lpszText =>
    let begun := lpszText.dropWhile isSPACECHAR
    let cbText := (trim (lpszText.take (lpszText.length - tokenPStr.length))).length
    if cbText = 0 then (some d, { x with lpszText := none })
    else
      match fromXMLString t begun cbText with
      | some value => (some (d.add (.text value)), { x with lpszText := none })
      | none => (none, { x with error := .eXMLErrorUnknownCharacterEntity })

inductive Status where
  | eOutsideTag
  | eAttribName
  | eAttribEquals (lpszTemp : List Byte) (cbTemp : Nat)
  | eAttribValue (lpszTemp : List Byte) (cbTemp : Nat)

/-- A call of `ParseXMLElement` for the node `d`. -/
structure Frame where
  d : XMLNode
  hasParent : Bool
  status : Status
  xml : XML

structure Returned where
  ok : Bool
  d : XMLNode
  xml : XML

structure Waiting where
  d : XMLNode
  hasParent : Bool

abbrev Outcome := Descent.Outcome Frame Returned Waiting

def unexpectedToken (d : XMLNode) (x : XML) : Outcome :=
  .ret ⟨false, d, { x with error := .eXMLErrorUnexpectedToken }⟩

def attribName (d : XMLNode) (hasParent : Bool) (token : NextToken) (x : XML) : Outcome :=
  match token.type with
  | .eTokenText => .goOn ⟨d, hasParent, .eAttribEquals token.pStr token.cbToken, x⟩
  | .eTokenCloseTag => .goOn ⟨d, hasParent, .eOutsideTag, { x with lpszText := some x.lpXML }⟩
  | .eTokenShortHandClose => .ret ⟨true, d, { x with lpszText := some x.lpXML }⟩
  | _ => unexpectedToken d x

/-- Without the `?` that closes a declaration. -/
def withoutMark (d : XMLNode) (s : List Byte) (cb : Nat) : Nat :=
  if d.isDeclaration && s[cb - 1]? = some (chr '?') then cb - 1 else cb

def attribEquals (d : XMLNode) (hasParent : Bool) (lpszTemp : List Byte) (cbTemp : Nat)
    (token : NextToken) (x : XML) : Outcome :=
  let closed := withoutMark d lpszTemp cbTemp
  let d' := if closed = 0 then d else d.addAttribute (stringDup lpszTemp closed) none
  match token.type with
  | .eTokenText =>
    .goOn ⟨d.addAttribute (stringDup lpszTemp cbTemp) none, hasParent,
      .eAttribEquals token.pStr token.cbToken, x⟩
  | .eTokenShortHandClose => .ret ⟨true, d', { x with lpszText := some x.lpXML }⟩
  | .eTokenCloseTag => .goOn ⟨d', hasParent, .eOutsideTag, { x with lpszText := some x.lpXML }⟩
  | .eTokenEquals => .goOn ⟨d, hasParent, .eAttribValue lpszTemp cbTemp, x⟩
  | _ => unexpectedToken d x

def addValue (d : XMLNode) (hasParent : Bool) (lpszTemp : List Byte) (cbTemp : Nat)
    (value : Option (List Byte)) (x : XML) : Outcome :=
  if cbTemp = 0 then .goOn ⟨d, hasParent, .eAttribName, x⟩
  else
    match value with
    | none => .ret ⟨false, d, { x with error := .eXMLErrorUnknownCharacterEntity }⟩
    | some value =>
      .goOn ⟨d.addAttribute (stringDup lpszTemp cbTemp) (some value), hasParent, .eAttribName, x⟩

def attribValue (t : ByteTable) (d : XMLNode) (hasParent : Bool) (lpszTemp : List Byte)
    (cbTemp : Nat) (token : NextToken) (x : XML) : Outcome :=
  let cbToken := withoutMark d token.pStr token.cbToken
  match token.type with
  | .eTokenText => addValue d hasParent lpszTemp cbTemp (fromXMLString t token.pStr cbToken) x
  | .eTokenQuotedText =>
    addValue d hasParent lpszTemp cbTemp (fromXMLString t token.pStr.tail (cbToken - 2)) x
  | _ => unexpectedToken d x

def afterText (t : ByteTable) (d : XMLNode) (pStr : List Byte) (x : XML)
    (next : XMLNode → XML → Outcome) : Outcome :=
  match maybeAddTxT t d x pStr with
  | (none, x) => .ret ⟨false, d, x⟩
  | (some d, x) => next d x

def openTag (t : ByteTable) (hasParent isDeclaration : Bool) (d : XMLNode) (x : XML) : Outcome :=
  let token := getNextToken t x.docTypeClose x.lpXML
  let x := { x with lpXML := token.rest }
  match token.type with
  | .eTokenText =>
    .call ⟨⟨stringDup token.pStr token.cbToken, isDeclaration, [], []⟩, true, .eAttribName, x⟩
      ⟨d, hasParent⟩
  | _ => .ret ⟨false, d, { x with error := .eXMLErrorMissingTagName }⟩

def closeTag (t : ByteTable) (d : XMLNode) (x : XML) : Outcome :=
  let token := getNextToken t x.docTypeClose x.lpXML
  let next := getNextToken t x.docTypeClose token.rest
  match token.type, next.type with
  | .eTokenText, .eTokenCloseTag =>
    let x := { x with lpXML := next.rest, lpszText := some next.rest }
    if myTagCompare d.lpszName token.pStr then
      .ret ⟨true, d, { x with
        error := .eXMLErrorMissingEndTag
        lpEndTag := token.pStr
        cbEndTag := token.cbToken }⟩
    else .ret ⟨true, d, x⟩
  | .eTokenText, _ =>
    .ret ⟨false, d, { x with lpXML := next.rest, error := .eXMLErrorMissingEndTagName }⟩
  | _, _ => .ret ⟨false, d, { x with lpXML := token.rest, error := .eXMLErrorMissingEndTagName }⟩

def clearTag (t : ByteTable) (hasParent : Bool) (pClr : ALLXMLClearTag) (d : XMLNode) (x : XML) :
    Outcome :=
  match parseClearTag t d x pClr with
  | none => .stuck
  | some (none, x) => .ret ⟨false, d, x⟩
  | some (some d, x) => .goOn ⟨d, hasParent, .eOutsideTag, { x with lpszText := some x.lpXML }⟩

def outsideTag (t : ByteTable) (d : XMLNode) (hasParent : Bool) (token : NextToken) (x : XML) :
    Outcome :=
  match token.type with
  | .eTokenTagStart => afterText t d token.pStr x (openTag t hasParent false)
  | .eTokenDeclaration => afterText t d token.pStr x (openTag t hasParent true)
  | .eTokenTagEnd => afterText t d token.pStr x (closeTag t)
  | .eTokenClear pClr => afterText t d token.pStr x (clearTag t hasParent pClr)
  | _ => .goOn ⟨d, hasParent, .eOutsideTag, x⟩

def parseToken (t : ByteTable) (f : Frame) : Outcome :=
  let token := getNextToken t f.xml.docTypeClose f.xml.lpXML
  let x := { f.xml with lpXML := token.rest }
  if token.type = .eTokenError then
    if !f.d.isDeclaration && f.hasParent then
      .ret ⟨false, f.d, { x with error := .eXMLErrorMissingEndTag }⟩
    else .ret ⟨false, f.d, x⟩
  else
    match f.status with
    | .eOutsideTag => outsideTag t f.d f.hasParent token x
    | .eAttribName => attribName f.d f.hasParent token x
    | .eAttribEquals lpszTemp cbTemp => attribEquals f.d f.hasParent lpszTemp cbTemp token x
    | .eAttribValue lpszTemp cbTemp => attribValue t f.d f.hasParent lpszTemp cbTemp token x

/-- What the caller does with its child: it goes on, or it returns as well, as
long as an end tag is without its start tag. -/
def addParsedChild (w : Waiting) (r : Returned) : Frame ⊕ Returned :=
  let d := w.d.add (.child r.d)
  if !r.ok then .inr ⟨false, d, r.xml⟩
  else if r.xml.cbEndTag ≠ 0 then
    if d.lpszName = [] then .inr ⟨false, d, { r.xml with error := .eXMLErrorUnmatchedEndTag }⟩
    else if myTagCompare d.lpszName r.xml.lpEndTag then .inr ⟨true, d, r.xml⟩
    else .inr ⟨true, d, { r.xml with cbEndTag := 0 }⟩
  else .inl ⟨d, w.hasParent, .eOutsideTag, r.xml⟩

def parseXMLElement (t : ByteTable) : (rounds : Nat) → Frame → Option Returned :=
  Descent.run (parseToken t) addParsedChild

-- ---------------------------------------------------------------------------
-- Documents
-- ---------------------------------------------------------------------------

/-- The node, `none` for the empty one, `pResults->error` and the closing tag
of `<!DOCTYPE` from then on. -/
structure XMLResults where
  node : Option XMLNode
  error : XMLError
  docTypeClose : DocTypeClose

def documentFrame (docTypeClose : DocTypeClose) (lpszXML : List Byte) : Frame :=
  ⟨⟨[], false, [], []⟩, false, .eOutsideTag,
    ⟨lpszXML, some lpszXML, .eXMLErrorNone, [], 0, docTypeClose⟩⟩

/-- The search for the tag among the children, and in a declaration instead of
behind it. -/
def findTag (tag : List Byte) : List XMLContent → Option XMLNode
  | [] => none
  | .child ⟨name, isDeclaration, attributes, contents⟩ :: cs =>
    if tcsicmp name tag then some ⟨name, isDeclaration, attributes, contents⟩
    else if isDeclaration then findTag tag contents
    else findTag tag cs
  | .text _ :: cs => findTag tag cs
  | .clear _ _ _ :: cs => findTag tag cs

def skipHead (head : XMLNode) : XMLNode :=
  match head.pChild with
  | [node] => if head.nElement = 1 then node else head
  | _ => head

/-- The node and `pResults->error`, when no tag is empty and none is looked for. -/
def findFirstTag (tag : List Byte) (xnode : XMLNode) (error : XMLError) :
    Option XMLNode × XMLError :=
  if error = .eXMLErrorNone || error = .eXMLErrorMissingEndTag then
    if tag ≠ [] && (xnode.lpszName = [] || !tcsicmp xnode.lpszName tag) then
      match findTag tag xnode.contents with
      | some node => (some node, error)
      | none => (none, .eXMLErrorFirstTagNotFound)
    else (some xnode, error)
  else (none, error)

def parseString (t : ByteTable) (docTypeClose : DocTypeClose) (lpszXML tag : List Byte) :
    Option XMLResults :=
  (parseXMLElement t (lpszXML.length + 1) (documentFrame docTypeClose lpszXML)).map fun r =>
    let (node, error) := findFirstTag tag (skipHead r.d) r.xml.error
    ⟨node, error, r.xml.docTypeClose⟩

-- ---------------------------------------------------------------------------
-- What is left of the string
-- ---------------------------------------------------------------------------

theorem suffix_scanQuoted {t : ByteTable} {quote : Byte} {n : Nat} {s rest : List Byte}
    (h : scanQuoted t quote n s = some rest) : rest <:+ s := by
  fun_induction scanQuoted t quote n s with
  | case1 => simp at h
  | case2 n ch s ih => exact (ih h).trans (List.suffix_cons ..)
  | case3 => simp at h
  | case4 =>
    cases h
    exact List.suffix_cons ..
  | case5 => simp at h
  | case6 ch s _ _ _ ih => exact (ih h).trans (List.suffix_cons ..)

theorem suffix_scanText (t : ByteTable) (n : Nat) (s : List Byte) : (scanText t n s).2 <:+ s := by
  fun_induction scanText t n s with
  | case1 => exact List.suffix_refl _
  | case2 n ch s ih => exact ih.trans (List.suffix_cons ..)
  | case3 => exact List.suffix_refl _
  | case4 => exact List.suffix_cons ..
  | case5 => exact List.suffix_refl _
  | case6 => exact List.suffix_refl _
  | case7 ch s _ _ _ _ ih => exact ih.trans (List.suffix_cons ..)

theorem suffix_textToken (t : ByteTable) (ch : Byte) (s : List Byte) :
    (textToken t ch s).rest <:+ s := suffix_scanText t _ s

theorem suffix_standardToken (t : ByteTable) (ch : Byte) (s : List Byte) :
    (standardToken t ch s).rest <:+ s := by
  unfold standardToken
  split
  · split
    · exact suffix_scanQuoted ‹_›
    · exact suffix_textToken t ch s
  · split_ifs <;>
      first
        | exact List.suffix_refl _
        | exact List.tail_suffix _
        | exact suffix_textToken t ch s

theorem not_clear_standardToken (t : ByteTable) (ch : Byte) (s : List Byte) (pClr : ALLXMLClearTag) :
    (standardToken t ch s).type ≠ .eTokenClear pClr := by
  unfold standardToken
  split
  · split <;> simp [textToken]
  · split_ifs <;> simp [textToken]

theorem open_ne_nil {docTypeClose : DocTypeClose} {tag : ALLXMLClearTag}
    (h : tag ∈ XMLClearTags docTypeClose) : tag.lpszOpen ≠ [] := by
  simp only [XMLClearTags, List.mem_cons, List.not_mem_nil, or_false] at h
  obtain rfl | rfl | rfl | rfl | rfl := h <;> simp [str, docTypeOpen]

/-- What follows a token. A token takes something away, and a clear tag stands
where it has been found. -/
structure Follows (docTypeClose : DocTypeClose) (lpXML : List Byte) (token : NextToken) : Prop where
  suffix : token.rest <:+ lpXML
  shorter : token.type ≠ .eTokenError → token.rest.length < lpXML.length
  clear : ∀ pClr, token.type = .eTokenClear pClr →
    pClr ∈ XMLClearTags docTypeClose ∧ ∃ s, s <:+ lpXML ∧ tcsnicmp pClr.lpszOpen s

theorem follows_getNextToken (t : ByteTable) (docTypeClose : DocTypeClose) (lpXML : List Byte) :
    Follows docTypeClose lpXML (getNextToken t docTypeClose lpXML) := by
  have hspace := List.dropWhile_suffix isSPACECHAR (l := lpXML)
  unfold getNextToken
  split
  · exact ⟨List.nil_suffix, by simp, by simp⟩
  · next ch s hs =>
    rw [hs] at hspace
    have hlen := hspace.length_le
    split
    · exact ⟨hspace, by simp, by simp⟩
    · split
      · next tag htag =>
        have hmem := List.mem_of_find?_eq_some htag
        have hopen := List.length_pos_of_ne_nil (open_ne_nil hmem)
        refine ⟨(List.drop_suffix ..).trans hspace, fun _ => ?_, fun pClr hclear => ?_⟩
        · rw [List.length_drop]
          rw [List.length_cons] at hlen ⊢
          omega
        · obtain rfl := XMLTokenType.eTokenClear.inj hclear
          exact ⟨hmem, ch :: s, hspace, by simpa using List.find?_some htag⟩
      · have hrest := suffix_standardToken t ch s
        refine ⟨hrest.trans ((List.suffix_cons ..).trans hspace), fun _ => ?_, fun pClr hclear => ?_⟩
        · exact lt_of_lt_of_le (Nat.lt_succ_of_le hrest.length_le) hlen
        · exact absurd hclear (not_clear_standardToken t ch s pClr)

@[simp] theorem lpXML_maybeAddTxT (t : ByteTable) (d : XMLNode) (x : XML) (tokenPStr : List Byte) :
    (maybeAddTxT t d x tokenPStr).2.lpXML = x.lpXML := by
  unfold maybeAddTxT
  split
  · rfl
  · dsimp only
    split
    · rfl
    · split <;> rfl

@[simp] theorem docTypeClose_maybeAddTxT (t : ByteTable) (d : XMLNode) (x : XML)
    (tokenPStr : List Byte) : (maybeAddTxT t d x tokenPStr).2.docTypeClose = x.docTypeClose := by
  unfold maybeAddTxT
  split
  · rfl
  · dsimp only
    split
    · rfl
    · split <;> rfl

-- ---------------------------------------------------------------------------
-- Clear tags
-- ---------------------------------------------------------------------------

/-- No document type is closed by the last character of the string, with
which `nIndex` could come to stand behind the string. -/
def DocTypesEnd (s : List Byte) : Prop :=
  (∀ u, u <:+ s → ¬tcsnicmp docTypeOpen u) ∨ s.getLast? ≠ some (chr '>')

theorem getLast?_of_suffix {α : Type*} {u s : List α} (h : u <:+ s) (hu : u ≠ []) :
    u.getLast? = s.getLast? := by
  obtain ⟨r, rfl⟩ := h
  rw [List.getLast?_append_of_ne_nil r hu]

theorem DocTypesEnd.suffix {s u : List Byte} (h : DocTypesEnd s) (hu : u <:+ s) : DocTypesEnd u := by
  obtain h | h := h
  · exact .inl fun v hv => h v (hv.trans hu)
  · refine .inr fun hlast => h ?_
    rw [← getLast?_of_suffix hu (by rintro rfl; simp at hlast), hlast]

theorem tcsstr_spec {pattern s u : List Byte} (h : tcsstr pattern s = some u) :
    pattern <+: u ∧ u <:+ s := by
  fun_induction tcsstr pattern s with
  | case1 hnil =>
    cases h
    exact ⟨by simp [hnil], List.suffix_refl _⟩
  | case2 => cases h
  | case3 ch s hprefix =>
    cases h
    exact ⟨List.isPrefixOf_iff_prefix.mp hprefix, List.suffix_refl _⟩
  | case4 ch s _ ih => exact ⟨(ih h).1, (ih h).2.trans (List.suffix_cons ..)⟩

theorem scanDocType_spec {t : ByteTable} {n : Nat} {s u : List Byte}
    (h : scanDocType t n s = some u) :
    u <:+ s ∧ (u.head? = some (chr '<') ∨ u.head? = some (chr '>')) := by
  fun_induction scanDocType t n s with
  | case1 => cases h
  | case2 n ch s ih => exact ⟨(ih h).1.trans (List.suffix_cons ..), (ih h).2⟩
  | case3 => cases h
  | case4 ch s _ hch =>
    cases h
    exact ⟨List.suffix_refl _, by simpa using hch⟩
  | case5 ch s _ _ ih => exact ⟨(ih h).1.trans (List.suffix_cons ..), (ih h).2⟩

theorem close_of_docTypeOpen {docTypeClose : DocTypeClose} {pClear : ALLXMLClearTag}
    (h : pClear ∈ XMLClearTags docTypeClose) (hopen : pClear.lpszOpen = docTypeOpen) :
    pClear.lpszClose = docTypeClose.lpszClose := by
  simp only [XMLClearTags, List.mem_cons, List.not_mem_nil, or_false] at h
  obtain rfl | rfl | rfl | rfl | rfl := h <;> first | rfl | exact absurd hopen (by decide)

theorem findClose_spec {t : ByteTable} {docTypeClose : DocTypeClose} {pClear : ALLXMLClearTag}
    (htag : pClear ∈ XMLClearTags docTypeClose) {lpXML close lpszTemp : List Byte}
    (hlast : pClear.lpszOpen = docTypeOpen → lpXML.getLast? ≠ some (chr '>'))
    (h : findClose t pClear lpXML = some (close, lpszTemp)) :
    close.length ≤ lpszTemp.length ∧ lpszTemp.length ≤ lpXML.length := by
  have hsearch {pattern : List Byte} (h : tcsstr pattern lpXML = some lpszTemp) :
      pattern.length ≤ lpszTemp.length ∧ lpszTemp.length ≤ lpXML.length :=
    ⟨(tcsstr_spec h).1.length_le, (tcsstr_spec h).2.length_le⟩
  unfold findClose at h
  split at h
  · next hopen =>
    split at h
    · cases h
    · next s hs =>
      obtain ⟨hsuffix, hhead⟩ := scanDocType_spec hs
      split at h
      · obtain ⟨u, hu, heq⟩ := Option.map_eq_some_iff.mp h
        obtain ⟨rfl, rfl⟩ := Prod.mk.inj heq
        exact hsearch hu
      · next hlt =>
        obtain ⟨rfl, rfl⟩ := Prod.mk.inj (Option.some.inj h)
        refine ⟨?_, hsuffix.length_le⟩
        have hclose : pClear.lpszClose.length ≤ 2 := by
          rw [close_of_docTypeOpen htag hopen]
          cases docTypeClose <;> decide
        -- behind `>` there is another character, which is not the last one of the string
        obtain ⟨rest, rfl⟩ := List.head?_eq_some_iff.mp (hhead.resolve_left hlt)
        cases rest with
        | nil => exact absurd (getLast?_of_suffix hsuffix (by simp)).symm (hlast hopen)
        | cons b rest =>
          rw [List.length_cons, List.length_cons]
          omega
  · obtain ⟨u, hu, heq⟩ := Option.map_eq_some_iff.mp h
    obtain ⟨rfl, rfl⟩ := Prod.mk.inj heq
    exact hsearch hu

theorem exists_parseClearTag (t : ByteTable) (d : XMLNode) {x : XML} {pClear : ALLXMLClearTag}
    (htag : pClear ∈ XMLClearTags x.docTypeClose)
    (hlast : pClear.lpszOpen = docTypeOpen → x.lpXML.getLast? ≠ some (chr '>')) :
    ∃ parsed, parseClearTag t d x pClear = some parsed := by
  unfold parseClearTag
  dsimp only
  split
  · next close lpszTemp hclose =>
    obtain ⟨hlen, hle⟩ := findClose_spec htag hlast hclose
    rw [if_neg (by omega)]
    exact ⟨_, rfl⟩
  · exact ⟨_, rfl⟩

theorem suffix_parseClearTag {t : ByteTable} {d : XMLNode} {x : XML} {pClear : ALLXMLClearTag}
    {parsed : Option XMLNode × XML} (h : parseClearTag t d x pClear = some parsed) :
    parsed.2.lpXML <:+ x.lpXML := by
  unfold parseClearTag at h
  dsimp only at h
  split at h
  · split at h
    · cases h
    · obtain rfl := Option.some.inj h
      exact List.drop_suffix ..
  · obtain rfl := Option.some.inj h
    exact List.suffix_refl _

-- ---------------------------------------------------------------------------
-- Termination
-- ---------------------------------------------------------------------------

def Leaves (s : List Byte) : Outcome → Prop
  | .goOn f => f.xml.lpXML <:+ s
  | .ret r => r.xml.lpXML <:+ s
  | .call f _ => f.xml.lpXML <:+ s
  | .stuck => True

variable {s : List Byte} {d : XMLNode} {hasParent : Bool} {lpszTemp : List Byte} {cbTemp : Nat}
  {token : NextToken} {x : XML} {t : ByteTable}

theorem leaves_attribName (h : x.lpXML <:+ s) : Leaves s (attribName d hasParent token x) := by
  unfold attribName
  split <;> exact h

theorem leaves_attribEquals (h : x.lpXML <:+ s) :
    Leaves s (attribEquals d hasParent lpszTemp cbTemp token x) := by
  unfold attribEquals
  dsimp only
  split <;> exact h

theorem leaves_addValue {value : Option (List Byte)} (h : x.lpXML <:+ s) :
    Leaves s (addValue d hasParent lpszTemp cbTemp value x) := by
  unfold addValue
  split
  · exact h
  · split <;> exact h

theorem leaves_attribValue (h : x.lpXML <:+ s) :
    Leaves s (attribValue t d hasParent lpszTemp cbTemp token x) := by
  unfold attribValue
  dsimp only
  split
  · exact leaves_addValue h
  · exact leaves_addValue h
  · exact h

theorem leaves_afterText {pStr : List Byte} {next : XMLNode → XML → Outcome}
    (hnext : ∀ d y, y.lpXML <:+ s → Leaves s (next d y)) (h : x.lpXML <:+ s) :
    Leaves s (afterText t d pStr x next) := by
  have hy : (maybeAddTxT t d x pStr).2.lpXML <:+ s := by rwa [lpXML_maybeAddTxT]
  unfold afterText
  generalize maybeAddTxT t d x pStr = added at hy ⊢
  obtain ⟨_ | d, y⟩ := added
  · exact hy
  · exact hnext d y hy

theorem leaves_openTag {isDeclaration : Bool} (h : x.lpXML <:+ s) :
    Leaves s (openTag t hasParent isDeclaration d x) := by
  have hrest := (follows_getNextToken t x.docTypeClose x.lpXML).suffix.trans h
  unfold openTag
  dsimp only
  split <;> exact hrest

theorem leaves_closeTag (h : x.lpXML <:+ s) : Leaves s (closeTag t d x) := by
  have hrest := (follows_getNextToken t x.docTypeClose x.lpXML).suffix.trans h
  have hnext := (follows_getNextToken t x.docTypeClose _).suffix.trans hrest
  unfold closeTag
  dsimp only
  split
  · split <;> exact hnext
  · exact hnext
  · exact hrest

theorem leaves_clearTag {pClr : ALLXMLClearTag} (h : x.lpXML <:+ s) :
    Leaves s (clearTag t hasParent pClr d x) := by
  unfold clearTag
  split
  · trivial
  · next hparse => exact (suffix_parseClearTag hparse).trans h
  · next hparse => exact (suffix_parseClearTag hparse).trans h

theorem leaves_outsideTag (h : x.lpXML <:+ s) : Leaves s (outsideTag t d hasParent token x) := by
  unfold outsideTag
  split
  · exact leaves_afterText (fun _ _ => leaves_openTag) h
  · exact leaves_afterText (fun _ _ => leaves_openTag) h
  · exact leaves_afterText (fun _ _ => leaves_closeTag) h
  · exact leaves_afterText (fun _ _ => leaves_clearTag) h
  · exact h

/-- A round that does not end the call takes something away. -/
theorem leaves_parseToken (t : ByteTable) (f : Frame) :
    (∃ r, parseToken t f = .ret r ∧ r.xml.lpXML <:+ f.xml.lpXML) ∨
      ∃ s, s <:+ f.xml.lpXML ∧ s.length < f.xml.lpXML.length ∧ Leaves s (parseToken t f) := by
  have hfollows := follows_getNextToken t f.xml.docTypeClose f.xml.lpXML
  unfold parseToken
  by_cases herror : (getNextToken t f.xml.docTypeClose f.xml.lpXML).type = .eTokenError
  · left
    simp only [herror, if_true]
    split_ifs <;> exact ⟨_, rfl, hfollows.suffix⟩
  · right
    refine ⟨_, hfollows.suffix, hfollows.shorter herror, ?_⟩
    simp only [herror, if_false]
    split
    · exact leaves_outsideTag (List.suffix_refl _)
    · exact leaves_attribName (List.suffix_refl _)
    · exact leaves_attribEquals (List.suffix_refl _)
    · exact leaves_attribValue (List.suffix_refl _)

theorem lpXML_addParsedChild (w : Waiting) (r : Returned) :
    (∀ {g}, addParsedChild w r = .inl g → g.xml.lpXML = r.xml.lpXML) ∧
      ∀ {r'}, addParsedChild w r = .inr r' → r'.xml.lpXML = r.xml.lpXML := by
  unfold addParsedChild
  dsimp only
  split_ifs <;> simp

theorem suffix_next {f g : Frame}
    (h : parseToken t f = .goOn g ∨ ∃ w, parseToken t f = .call g w) :
    g.xml.lpXML <:+ f.xml.lpXML ∧ g.xml.lpXML.length < f.xml.lpXML.length := by
  obtain ⟨r, hr, -⟩ | ⟨s, hs, hlt, hleaves⟩ := leaves_parseToken t f
  · simp [hr] at h
  · have hg : g.xml.lpXML <:+ s := by
      obtain h | ⟨w, h⟩ := h <;> rwa [h] at hleaves
    exact ⟨hg.trans hs, lt_of_le_of_lt hg.length_le hlt⟩

theorem decreases (t : ByteTable) :
    Descent.Decreases (fun f => f.xml.lpXML.length) (fun f r => r.xml.lpXML <:+ f.xml.lpXML)
      (parseToken t) addParsedChild where
  goOn {f g} h := by
    obtain ⟨hg, hlt⟩ := suffix_next (.inl h)
    exact ⟨hlt, fun r hr => hr.trans hg⟩
  ret {f r} h := by
    obtain ⟨r', hr, hsuffix⟩ | ⟨s, hs, -, hleaves⟩ := leaves_parseToken t f
    · rw [h] at hr
      cases hr
      exact hsuffix
    · rw [h] at hleaves
      exact List.IsSuffix.trans hleaves hs
  call h := (suffix_next (.inr ⟨_, h⟩)).2
  resume {f g w r} h hr := by
    obtain ⟨hg, hlt⟩ := suffix_next (.inr ⟨_, h⟩)
    have hf := hr.trans hg
    obtain ⟨hinl, hinr⟩ := lpXML_addParsedChild w r
    refine ⟨fun {g'} hresume => ?_, fun {r'} hresume => ?_⟩
    · rw [hinl hresume]
      exact ⟨lt_of_le_of_lt hr.length_le hlt, fun r' hr' => hr'.trans hf⟩
    · rwa [hinr hresume]

theorem afterText_ne_stuck {pStr : List Byte} {next : XMLNode → XML → Outcome}
    (hnext : ∀ d y, y.lpXML = x.lpXML → y.docTypeClose = x.docTypeClose → next d y ≠ .stuck) :
    afterText t d pStr x next ≠ .stuck := by
  have hxml := lpXML_maybeAddTxT t d x pStr
  have hclose := docTypeClose_maybeAddTxT t d x pStr
  unfold afterText
  generalize maybeAddTxT t d x pStr = added at hxml hclose ⊢
  obtain ⟨_ | d, y⟩ := added
  · simp
  · exact hnext d y hxml hclose

theorem clearTag_ne_stuck {pClr : ALLXMLClearTag} (htag : pClr ∈ XMLClearTags x.docTypeClose)
    (hlast : pClr.lpszOpen = docTypeOpen → x.lpXML.getLast? ≠ some (chr '>')) :
    clearTag t hasParent pClr d x ≠ .stuck := by
  obtain ⟨⟨_ | d', y⟩, hparse⟩ := exists_parseClearTag t d htag hlast
  all_goals simp [clearTag, hparse]

theorem outsideTag_ne_stuck
    (hclear : ∀ pClr, token.type = .eTokenClear pClr → pClr ∈ XMLClearTags x.docTypeClose ∧
      (pClr.lpszOpen = docTypeOpen → x.lpXML.getLast? ≠ some (chr '>'))) :
    outsideTag t d hasParent token x ≠ .stuck := by
  unfold outsideTag
  split
  · refine afterText_ne_stuck fun d y _ _ => ?_
    unfold openTag
    dsimp only
    split <;> simp
  · refine afterText_ne_stuck fun d y _ _ => ?_
    unfold openTag
    dsimp only
    split <;> simp
  · refine afterText_ne_stuck fun d y _ _ => ?_
    unfold closeTag
    dsimp only
    split
    · split <;> simp
    · simp
    · simp
  · next pClr htype =>
    obtain ⟨htag, hlast⟩ := hclear pClr htype
    exact afterText_ne_stuck fun d y hy hclose => clearTag_ne_stuck (hclose ▸ htag) (hy ▸ hlast)
  · simp

theorem attribName_ne_stuck : attribName d hasParent token x ≠ .stuck := by
  unfold attribName
  split <;> simp [unexpectedToken]

theorem attribEquals_ne_stuck : attribEquals d hasParent lpszTemp cbTemp token x ≠ .stuck := by
  unfold attribEquals
  dsimp only
  split <;> simp [unexpectedToken]

theorem addValue_ne_stuck {value : Option (List Byte)} :
    addValue d hasParent lpszTemp cbTemp value x ≠ .stuck := by
  unfold addValue
  split
  · simp
  · split <;> simp

theorem attribValue_ne_stuck : attribValue t d hasParent lpszTemp cbTemp token x ≠ .stuck := by
  unfold attribValue
  dsimp only
  split
  · exact addValue_ne_stuck
  · exact addValue_ne_stuck
  · simp [unexpectedToken]

theorem getLast?_of_clear {docTypeClose : DocTypeClose} {lpXML : List Byte}
    (hsafe : DocTypesEnd lpXML) (hfollows : Follows docTypeClose lpXML token) {pClr : ALLXMLClearTag}
    (htype : token.type = .eTokenClear pClr) (hopen : pClr.lpszOpen = docTypeOpen) :
    token.rest.getLast? ≠ some (chr '>') := by
  obtain ⟨-, u, hu, hfound⟩ := hfollows.clear pClr htype
  rw [hopen] at hfound
  obtain hnone | hlast := hsafe
  · exact absurd hfound (hnone u hu)
  · intro h
    rw [getLast?_of_suffix hfollows.suffix (by intro hnil; simp [hnil] at h)] at h
    exact hlast h

theorem parseToken_ne_stuck {f : Frame} (hsafe : DocTypesEnd f.xml.lpXML) :
    parseToken t f ≠ .stuck := by
  have hfollows := follows_getNextToken t f.xml.docTypeClose f.xml.lpXML
  unfold parseToken
  dsimp only
  split
  · split <;> simp
  · split
    · exact outsideTag_ne_stuck fun pClr htype =>
        ⟨(hfollows.clear pClr htype).1, getLast?_of_clear hsafe hfollows htype⟩
    · exact attribName_ne_stuck
    · exact attribEquals_ne_stuck
    · exact attribValue_ne_stuck

theorem progresses (t : ByteTable) :
    Descent.Progresses (fun f => DocTypesEnd f.xml.lpXML) (fun f r => r.xml.lpXML <:+ f.xml.lpXML)
      (parseToken t) addParsedChild where
  stuck := parseToken_ne_stuck
  goOn hsafe h := hsafe.suffix (suffix_next (.inl h)).1
  call hsafe h := hsafe.suffix (suffix_next (.inr ⟨_, h⟩)).1
  resume {f g w r g'} hsafe h hr hresume := by
    rw [(lpXML_addParsedChild w r).1 hresume]
    exact hsafe.suffix (hr.trans (suffix_next (.inr ⟨_, h⟩)).1)

theorem exists_parseString (t : ByteTable) (docTypeClose : DocTypeClose) {lpszXML : List Byte}
    (h : DocTypesEnd lpszXML) (tag : List Byte) :
    ∃ results, parseString t docTypeClose lpszXML tag = some results := by
  obtain ⟨r, hr, -⟩ := @Descent.exists_run _ _ _ _ _ _ _ _ (decreases t) (progresses t)
    (documentFrame docTypeClose lpszXML) h _ (Nat.lt_succ_self _)
  exact ⟨_, congrArg _ hr⟩

end LARCmaCS.Xml
