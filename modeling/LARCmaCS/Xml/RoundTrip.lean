import LARCmaCS.Xml.Parser

/-!
# Rendering and parsing

What `createXMLString` writes, `parseString` reads back: the same tree, without
the spaces around its texts (`parseString_createXMLString`). The proof goes
along the string. Each lemma about `Descent.Runs` says what the parser does
with one piece of it, whatever follows.
-/

namespace LARCmaCS.Xml

-- ---------------------------------------------------------------------------
-- Trees that can be written
-- ---------------------------------------------------------------------------

/-- The printable characters without those that end a name or begin a token of
their own. -/
def nameByte (b : Byte) : Bool :=
  0x21#8 ≤ b && b < 0x80#8 && b ≠ 34#8 && b ≠ 39#8 && b ≠ chr '/' && b ≠ chr '<' && b ≠ chr '=' &&
    b ≠ chr '>' && b ≠ chr '!' && b ≠ chr '?'

structure IsName (s : List Byte) : Prop where
  ne_nil : s ≠ []
  nameByte : ∀ b ∈ s, nameByte b

/-- `<PRE>` and `<Script>` are clear tags. -/
structure IsElementName (s : List Byte) : Prop extends IsName s where
  not_pre : ¬tcsicmp (str "PRE") s
  not_script : ¬tcsicmp (str "Script") s

structure XMLAttribute.WellFormed (t : ByteTable) (a : XMLAttribute) : Prop where
  name : IsName a.lpszName
  value : ∀ value ∈ a.lpszValue, Encoded t value

theorem XMLAttribute.WellFormed.valued {t : ByteTable} {name value : List Byte} (hname : IsName name)
    (hvalue : Encoded t value) : XMLAttribute.WellFormed t ⟨name, some value⟩ where
  name := hname
  value v hv := by
    cases hv
    exact hvalue

/-- Written as in the table of the clear tags, and not closed before its end. -/
structure ClearWellFormed (openTag value closeTag : List Byte) : Prop where
  tag : ⟨openTag, closeTag⟩ ∈ XMLClearTags .bracket
  not_docType : openTag ≠ docTypeOpen
  ne_nil : value ≠ []
  no_nul : 0#8 ∉ value
  closed : tcsstr closeTag (value ++ closeTag) = some closeTag

def beginsWithText : List XMLContent → Bool
  | .text _ :: _ => true
  | _ => false

mutual

/-- No two texts follow each other: they would be read as one. -/
def XMLNode.WellFormed (t : ByteTable) : XMLNode → Prop
  | ⟨name, isDeclaration, attributes, contents⟩ =>
    IsElementName name ∧ isDeclaration = false ∧
      (∀ a ∈ attributes, a.WellFormed t) ∧ contentsWellFormed t contents

def contentsWellFormed (t : ByteTable) : List XMLContent → Prop
  | [] => True
  | .text value :: cs => Encoded t value ∧ ¬beginsWithText cs ∧ contentsWellFormed t cs
  | .clear openTag value closeTag :: cs =>
    ClearWellFormed openTag value closeTag ∧ contentsWellFormed t cs
  | .child node :: cs => node.WellFormed t ∧ contentsWellFormed t cs

end

def trimmedText (value : List Byte) : List XMLContent :=
  if trim value = [] then [] else [.text (trim value)]

@[simp] theorem trimmedText_nil : trimmedText [] = [] := by simp [trimmedText, trim]

mutual

def XMLNode.trimmed : XMLNode → XMLNode
  | ⟨name, isDeclaration, attributes, contents⟩ =>
    ⟨name, isDeclaration, attributes, trimmedContents contents⟩

def trimmedContents : List XMLContent → List XMLContent
  | [] => []
  | .text value :: cs => trimmedText value ++ trimmedContents cs
  | .clear openTag value closeTag :: cs => .clear openTag value closeTag :: trimmedContents cs
  | .child node :: cs => .child node.trimmed :: trimmedContents cs

end

def XMLNode.addAll (x : XMLNode) (cs : List XMLContent) : XMLNode :=
  { x with contents := x.contents ++ cs }

@[simp] theorem XMLNode.lpszName_addAll (x : XMLNode) (cs : List XMLContent) :
    (x.addAll cs).lpszName = x.lpszName := rfl

@[simp] theorem XMLNode.lpszName_add (x : XMLNode) (content : XMLContent) :
    (x.add content).lpszName = x.lpszName := rfl

@[simp] theorem XMLNode.addAll_nil (x : XMLNode) : x.addAll [] = x := by
  cases x
  simp [XMLNode.addAll]

@[simp] theorem XMLNode.addAll_addAll (x : XMLNode) (cs ds : List XMLContent) :
    (x.addAll cs).addAll ds = x.addAll (cs ++ ds) := by
  simp [XMLNode.addAll]

@[simp] theorem XMLNode.add_addAll (x : XMLNode) (content : XMLContent) (cs : List XMLContent) :
    (x.add content).addAll cs = x.addAll (content :: cs) := by
  simp [XMLNode.addAll, XMLNode.add]

def XMLNode.addAttributes (x : XMLNode) (attributes : List XMLAttribute) : XMLNode :=
  { x with pAttribute := x.pAttribute ++ attributes }

@[simp] theorem XMLNode.addAttributes_nil (x : XMLNode) : x.addAttributes [] = x := by
  cases x
  simp [XMLNode.addAttributes]

@[simp] theorem XMLNode.addAttribute_addAttributes (x : XMLNode) (name : List Byte)
    (value : Option (List Byte)) (attributes : List XMLAttribute) :
    (x.addAttribute name value).addAttributes attributes =
      x.addAttributes (⟨name, value⟩ :: attributes) := by
  simp [XMLNode.addAttribute, XMLNode.addAttributes]

theorem XMLNode.addAll_singleton (x : XMLNode) (content : XMLContent) :
    x.addAll [content] = x.add content := rfl

-- ---------------------------------------------------------------------------
-- Single tokens
-- ---------------------------------------------------------------------------

section Tokens

variable {t : ByteTable} {docTypeClose : DocTypeClose}

theorem nameByte_iff : ∀ {b : Byte}, nameByte b → b ≠ 0#8 ∧ b < 0x80#8 ∧ ¬isSPACECHAR b ∧
    b ≠ 34#8 ∧ b ≠ 39#8 ∧ b ≠ chr '/' ∧ b ≠ chr '<' ∧ b ≠ chr '=' ∧ b ≠ chr '>' := by decide

theorem dropWhile_spaces {w : List Byte} (hw : ∀ b ∈ w, isSPACECHAR b) (s : List Byte) :
    (w ++ s).dropWhile isSPACECHAR = s.dropWhile isSPACECHAR := by
  induction w with
  | nil => rfl
  | cons b w ih =>
    rw [List.cons_append, List.dropWhile_cons_of_pos (hw b (by simp))]
    exact ih fun c hc => hw c (by simp [hc])

theorem getNextToken_spaces {w : List Byte} (hw : ∀ b ∈ w, isSPACECHAR b) (s : List Byte) :
    getNextToken t docTypeClose (w ++ s) = getNextToken t docTypeClose s := by
  rw [getNextToken, dropWhile_spaces hw, getNextToken]

theorem find_clearTag_of_ne {ch : Byte} (h : ch ≠ chr '<') (s : List Byte) :
    ((XMLClearTags docTypeClose).find? fun tag => tcsnicmp tag.lpszOpen (ch :: s)) = none := by
  have hlower : toLower ch ≠ chr '<' := by
    revert ch
    decide
  have hlt : toLower (chr '<') = chr '<' := by decide
  simp [XMLClearTags, tcsnicmp, tcsicmp, str, docTypeOpen, hlt, hlower.symm]

theorem getNextToken_of_ne {ch : Byte} (h0 : ch ≠ 0#8) (hspace : ¬isSPACECHAR ch)
    (h : ch ≠ chr '<') (s : List Byte) :
    getNextToken t docTypeClose (ch :: s) = standardToken t ch s := by
  rw [getNextToken, List.dropWhile_cons_of_neg hspace]
  simp [h0, find_clearTag_of_ne h]

theorem getNextToken_lt {s : List Byte}
    (h : ((XMLClearTags docTypeClose).find? fun tag => tcsnicmp tag.lpszOpen (chr '<' :: s)) = none) :
    getNextToken t docTypeClose (chr '<' :: s) = standardToken t (chr '<') s := by
  have hspace : ¬isSPACECHAR (chr '<') := by decide
  have h0 : chr '<' ≠ 0#8 := by decide
  rw [getNextToken, List.dropWhile_cons_of_neg hspace]
  simp [h0, h]

theorem getNextToken_equals (s : List Byte) :
    getNextToken t docTypeClose (chr '=' :: s) = ⟨.eTokenEquals, chr '=' :: s, 1, s⟩ :=
  getNextToken_of_ne (by decide) (by decide) (by decide) s

theorem getNextToken_close (s : List Byte) :
    getNextToken t docTypeClose (chr '>' :: s) = ⟨.eTokenCloseTag, chr '>' :: s, 1, s⟩ :=
  getNextToken_of_ne (by decide) (by decide) (by decide) s

theorem getNextToken_shortHand (s : List Byte) :
    getNextToken t docTypeClose (chr '/' :: chr '>' :: s) =
      ⟨.eTokenShortHandClose, chr '/' :: chr '>' :: s, 2, s⟩ :=
  getNextToken_of_ne (by decide) (by decide) (by decide) _

theorem getNextToken_end (s : List Byte) :
    getNextToken t docTypeClose (chr '<' :: chr '/' :: s) =
      ⟨.eTokenTagEnd, chr '<' :: chr '/' :: s, 2, s⟩ := by
  rw [getNextToken_lt]
  · rfl
  · simp [XMLClearTags, tcsnicmp, tcsicmp, str, docTypeOpen, chr, toLower]

theorem getNextToken_declaration (s : List Byte) :
    getNextToken t docTypeClose (chr '<' :: chr '?' :: s) =
      ⟨.eTokenDeclaration, chr '<' :: chr '?' :: s, 2, s⟩ := by
  rw [getNextToken_lt]
  · rfl
  · simp [XMLClearTags, tcsnicmp, tcsicmp, str, docTypeOpen, chr, toLower]

def EndsName : List Byte → Prop
  | [] => False
  | c :: s => c = chr ' ' ∨ c = chr '>' ∨ c = chr '=' ∨ c = chr '/' ∧ s.head? = some (chr '>')

/-- The space behind a name belongs to its token. -/
def afterName : List Byte → List Byte
  | [] => []
  | c :: s => if c = chr ' ' then s else c :: s

theorem getNextToken_afterName (s : List Byte) :
    getNextToken t docTypeClose (afterName s) = getNextToken t docTypeClose s := by
  cases s with
  | nil => rfl
  | cons c s =>
    by_cases hc : c = chr ' '
    · rw [afterName, if_pos hc]
      exact (getNextToken_spaces (w := [c]) (by simp [hc, isSPACECHAR]) s).symm
    · rw [afterName, if_neg hc]

theorem scanText_name {name : List Byte} (hname : ∀ b ∈ name, nameByte b) {s : List Byte}
    (hs : EndsName s) : scanText t 0 (name ++ s) = (name.length, afterName s) := by
  induction name with
  | nil =>
    obtain _ | ⟨c, s⟩ := s
    · exact hs.elim
    · obtain rfl | rfl | rfl | ⟨rfl, hs⟩ := hs
      · simp [scanText, afterName, chr, isSPACECHAR]
      · simp [scanText, afterName, chr, isSPACECHAR]
      · simp [scanText, afterName, chr, isSPACECHAR]
      · simp [scanText, afterName, chr, isSPACECHAR, hs]
  | cons b name ih =>
    obtain ⟨h0, hlt, hspace, -, -, hslash, hopen, hequals, hclose⟩ := nameByte_iff (hname b (by simp))
    have hrest := ih fun c hc => hname c (by simp [hc])
    simp [scanText, h0, hspace, hslash, hopen, hequals, hclose, t.len_of_lt h0 hlt, hrest]

theorem getNextToken_name {name : List Byte} (hname : IsName name) {s : List Byte}
    (hs : EndsName s) :
    getNextToken t docTypeClose (name ++ s) =
      ⟨.eTokenText, name ++ s, name.length, afterName s⟩ := by
  obtain _ | ⟨b, name⟩ := name
  · exact absurd rfl hname.ne_nil
  · obtain ⟨h0, hlt, hspace, hquote, happos, hslash, hopen, hequals, hclose⟩ :=
      nameByte_iff (hname.nameByte b (by simp))
    rw [List.cons_append, getNextToken_of_ne h0 hspace hopen]
    have htail : ∀ c ∈ name, nameByte c := fun c hc => hname.nameByte c (by simp [hc])
    have hscan := scanText_name (t := t) htail hs
    simp [standardToken, textToken, hquote, happos, hslash, hopen, hequals, hclose,
      t.len_of_lt h0 hlt, hscan]

def quotedByte (b : Byte) : Bool := b ≠ 0#8 && b < 0x80#8 && b ≠ 34#8 && b ≠ chr '<'

theorem scanQuoted_append {w : List Byte} (hw : ∀ b ∈ w, quotedByte b) (s : List Byte) :
    scanQuoted t 34#8 0 (w ++ s) = scanQuoted t 34#8 0 s := by
  induction w with
  | nil => rfl
  | cons b w ih =>
    have hb := hw b (by simp)
    simp only [quotedByte, Bool.and_eq_true, decide_eq_true_eq] at hb
    obtain ⟨⟨⟨h0, hlt⟩, hquote⟩, hopen⟩ := hb
    rw [List.cons_append, scanQuoted, if_neg h0, if_neg hquote, if_neg hopen, t.len_of_lt h0 hlt]
    exact ih fun c hc => hw c (by simp [hc])

theorem quotedByte_entity {e : XMLCharacterEntity} (he : e ∈ XMLEntities) :
    ∀ b ∈ e.s, quotedByte b := by
  simp only [XMLEntities, List.mem_cons, List.not_mem_nil, or_false] at he
  obtain rfl | rfl | rfl | rfl | rfl := he <;> decide

theorem scanQuoted_escape {n : Nat} {value : List Byte} (h : encodedFrom t n value) (s : List Byte) :
    scanQuoted t 34#8 n (value.flatMap escape ++ 34#8 :: s) = some s := by
  induction value generalizing n with
  | nil =>
    cases n with
    | zero => simp [scanQuoted]
    | succ n => simp [encodedFrom] at h
  | cons b value ih =>
    rw [List.flatMap_cons, List.append_assoc]
    cases n with
    | zero =>
      obtain ⟨h0, hvalue⟩ := encoded_cons.mp h
      cases he : entityOf b with
      | some e =>
        rw [len_of_entity he] at hvalue
        rw [escape_of_some he, scanQuoted_append (quotedByte_entity (mem_of_entityOf he).1)]
        exact ih hvalue
      | none =>
        obtain ⟨hquote, -, hopen, -, -⟩ := not_special_of_entityOf he
        rw [escape_of_none he, List.singleton_append, scanQuoted, if_neg h0, if_neg hquote,
          if_neg hopen]
        exact ih hvalue
    | succ n =>
      obtain ⟨hb, hvalue⟩ := encodedFrom_succ.mp h
      rw [escape_of_le hb]
      exact ih hvalue

theorem getNextToken_quoted {value : List Byte} (h : Encoded t value) (s : List Byte) :
    getNextToken t docTypeClose (34#8 :: (value.flatMap escape ++ 34#8 :: s)) =
      ⟨.eTokenQuotedText, 34#8 :: (value.flatMap escape ++ 34#8 :: s),
        (value.flatMap escape).length + 2, s⟩ := by
  rw [getNextToken_of_ne (by decide) (by decide) (by decide)]
  simp [standardToken, scanQuoted_escape h, -List.length_flatMap]
  omega

/-- Only an element of its very name begins like a clear tag that is a word. -/
theorem tcsicmp_of_tcsnicmp {word name : List Byte} (hword : ∀ b ∈ word, 65#8 ≤ b && b ≤ 122#8)
    (hname : ∀ b ∈ name, nameByte b) {s : List Byte} (hs : EndsName s)
    (h : tcsicmp (word ++ [chr '>']) ((name ++ s).take (word.length + 1))) : tcsicmp word name := by
  induction word generalizing name with
  | nil =>
    cases name with
    | nil => rfl
    | cons b name =>
      have hb : ∀ {b : Byte}, nameByte b → toLower (chr '>') ≠ toLower b := by decide
      simp [tcsicmp, hb (hname b (by simp))] at h
  | cons a word ih =>
    cases name with
    | nil =>
      obtain _ | ⟨c, s⟩ := s
      · exact hs.elim
      · have ha : ∀ {a : Byte}, 65#8 ≤ a && a ≤ 122#8 → toLower a ≠ toLower (chr ' ') ∧
            toLower a ≠ toLower (chr '>') ∧ toLower a ≠ toLower (chr '=') ∧
            toLower a ≠ toLower (chr '/') := by decide
        obtain ⟨hspace, hclose, hequals, hslash⟩ := ha (hword a (by simp))
        obtain rfl | rfl | rfl | ⟨rfl, -⟩ := hs
        · simp [tcsicmp, hspace] at h
        · simp [tcsicmp, hclose] at h
        · simp [tcsicmp, hequals] at h
        · simp [tcsicmp, hslash] at h
    | cons b name =>
      have hname' : ∀ c ∈ name, nameByte c := fun c hc => hname c (by simp [hc])
      have hrest := ih (fun c hc => hword c (by simp [hc])) hname'
      simp [tcsicmp] at h hrest ⊢
      exact ⟨h.1, hrest h.2⟩

theorem not_tcsnicmp_word {word name : List Byte} (hword : ∀ b ∈ word, 65#8 ≤ b && b ≤ 122#8)
    (hname : ∀ b ∈ name, nameByte b) {s : List Byte} (hs : EndsName s) (h : ¬tcsicmp word name) :
    tcsnicmp (chr '<' :: (word ++ [chr '>'])) (chr '<' :: (name ++ s)) = false := by
  rw [Bool.eq_false_iff]
  intro hword'
  refine h (tcsicmp_of_tcsnicmp hword hname hs ?_)
  simpa [tcsnicmp, tcsicmp] using hword'

theorem getNextToken_start {name : List Byte} (hname : IsElementName name) {s : List Byte}
    (hs : EndsName s) :
    getNextToken t docTypeClose (chr '<' :: (name ++ s)) =
      ⟨.eTokenTagStart, chr '<' :: (name ++ s), 1, name ++ s⟩ := by
  have hwords : (∀ b ∈ str "PRE", 65#8 ≤ b && b ≤ 122#8) ∧
      ∀ b ∈ str "Script", 65#8 ≤ b && b ≤ 122#8 := by decide
  have hpre := not_tcsnicmp_word hwords.1 hname.nameByte hs hname.not_pre
  have hscript := not_tcsnicmp_word hwords.2 hname.nameByte hs hname.not_script
  obtain _ | ⟨b, name⟩ := name
  · exact absurd rfl hname.ne_nil
  · have hb : ∀ {b : Byte}, nameByte b →
        toLower (chr '!') ≠ toLower b ∧ b ≠ chr '/' ∧ b ≠ chr '?' := by decide
    obtain ⟨hmark, hslash, hquestion⟩ := hb (hname.nameByte b (by simp))
    have hdeclared {tag : List Byte} :
        tcsnicmp (chr '<' :: chr '!' :: tag) (chr '<' :: (b :: name ++ s)) = false := by
      simp [tcsnicmp, tcsicmp, hmark]
    rw [getNextToken_lt]
    · simp +decide [standardToken, hslash, hquestion]
    · simp only [XMLClearTags, List.find?_eq_none, List.mem_cons, List.not_mem_nil, or_false]
      rintro tag (rfl | rfl | rfl | rfl | rfl)
      · exact Bool.eq_false_iff.mp hdeclared
      · exact Bool.eq_false_iff.mp hdeclared
      · exact Bool.eq_false_iff.mp hpre
      · exact Bool.eq_false_iff.mp hscript
      · exact Bool.eq_false_iff.mp hdeclared

end Tokens

-- ---------------------------------------------------------------------------
-- Text between two tags
-- ---------------------------------------------------------------------------

section Text

variable {t : ByteTable}

def chunkFrom (t : ByteTable) : (n : Nat) → List Byte → Bool
  | 0, [] => true
  | _ + 1, [] => false
  | n + 1, _ :: s => chunkFrom t n s
  | 0, b :: s =>
    b ≠ 0#8 && b ≠ 34#8 && b ≠ 39#8 && b ≠ chr '<' && b ≠ chr '>' && chunkFrom t (t.len b - 1) s

abbrev Chunk (t : ByteTable) (s : List Byte) : Prop := chunkFrom t 0 s = true

@[simp] theorem chunk_cons {b : Byte} {s : List Byte} : Chunk t (b :: s) ↔
    b ≠ 0#8 ∧ b ≠ 34#8 ∧ b ≠ 39#8 ∧ b ≠ chr '<' ∧ b ≠ chr '>' ∧ chunkFrom t (t.len b - 1) s := by
  simp [Chunk, chunkFrom, and_assoc]

theorem chunkFrom_append {n : Nat} {s r : List Byte} (hs : chunkFrom t n s) (hr : Chunk t r) :
    chunkFrom t n (s ++ r) := by
  induction s generalizing n with
  | nil =>
    cases n with
    | zero => exact hr
    | succ n => simp [chunkFrom] at hs
  | cons b s ih =>
    cases n with
    | zero =>
      obtain ⟨h0, hquote, happos, hopen, hclose, hs⟩ := chunk_cons.mp hs
      exact chunk_cons.mpr ⟨h0, hquote, happos, hopen, hclose, ih hs⟩
    | succ n => exact ih (n := n) hs

def chunkByte (b : Byte) : Bool :=
  b ≠ 0#8 && b < 0x80#8 && b ≠ 34#8 && b ≠ 39#8 && b ≠ chr '<' && b ≠ chr '>'

theorem chunk_of_bytes {s : List Byte} (h : ∀ b ∈ s, chunkByte b) : Chunk t s := by
  induction s with
  | nil => rfl
  | cons b s ih =>
    have hb := h b (by simp)
    simp only [chunkByte, Bool.and_eq_true, decide_eq_true_eq] at hb
    obtain ⟨⟨⟨⟨⟨h0, hlt⟩, hquote⟩, happos⟩, hopen⟩, hclose⟩ := hb
    refine chunk_cons.mpr ⟨h0, hquote, happos, hopen, hclose, ?_⟩
    rw [t.len_of_lt h0 hlt]
    exact ih fun c hc => h c (by simp [hc])

theorem chunkByte_of_space : ∀ {b : Byte}, isSPACECHAR b → chunkByte b := by decide

theorem len_of_space (t : ByteTable) : ∀ {b : Byte}, isSPACECHAR b → t.len b = 1 := by
  cases t <;> decide

theorem chunk_spaces {w : List Byte} (hw : ∀ b ∈ w, isSPACECHAR b) : Chunk t w :=
  chunk_of_bytes fun b hb => chunkByte_of_space (hw b hb)

theorem chunkByte_entity {e : XMLCharacterEntity} (he : e ∈ XMLEntities) :
    ∀ b ∈ e.s, chunkByte b := by
  simp only [XMLEntities, List.mem_cons, List.not_mem_nil, or_false] at he
  obtain rfl | rfl | rfl | rfl | rfl := he <;> decide

theorem chunkFrom_escape {n : Nat} {value : List Byte} (h : encodedFrom t n value) :
    chunkFrom t n (value.flatMap escape) := by
  induction value generalizing n with
  | nil =>
    cases n with
    | zero => rfl
    | succ n => simp [encodedFrom] at h
  | cons b value ih =>
    rw [List.flatMap_cons]
    cases n with
    | zero =>
      obtain ⟨h0, hvalue⟩ := encoded_cons.mp h
      cases he : entityOf b with
      | some e =>
        rw [len_of_entity he] at hvalue
        rw [escape_of_some he]
        exact chunkFrom_append (chunk_of_bytes (chunkByte_entity (mem_of_entityOf he).1)) (ih hvalue)
      | none =>
        obtain ⟨hquote, happos, hopen, hclose, -⟩ := not_special_of_entityOf he
        rw [escape_of_none he]
        exact chunk_cons.mpr ⟨h0, hquote, happos, hopen, hclose, ih hvalue⟩
    | succ n =>
      obtain ⟨hb, hvalue⟩ := encodedFrom_succ.mp h
      rw [escape_of_le hb]
      exact ih hvalue

theorem scanText_chunk {n : Nat} {s : List Byte} (h : chunkFrom t n s) (r : List Byte) :
    ∃ s', (scanText t n (s ++ chr '<' :: r)).2 = s' ++ chr '<' :: r ∧ Chunk t s' ∧
      s'.length ≤ s.length := by
  induction s generalizing n with
  | nil =>
    cases n with
    | zero => exact ⟨[], by simp [scanText, chr, isSPACECHAR], rfl, le_rfl⟩
    | succ n => simp [chunkFrom] at h
  | cons b s ih =>
    cases n with
    | zero =>
      obtain ⟨h0, hquote, happos, hopen, hclose, hs⟩ := chunk_cons.mp h
      rw [List.cons_append, scanText, if_neg h0]
      split_ifs with hspace
      · rw [len_of_space t hspace] at hs
        exact ⟨s, rfl, hs, Nat.le_succ _⟩
      · exact ⟨b :: s, rfl, h, le_rfl⟩
      · exact ⟨b :: s, rfl, h, le_rfl⟩
      · obtain ⟨s', hscan, hs', hlen⟩ := ih hs
        exact ⟨s', hscan, hs', Nat.le_succ_of_le hlen⟩
    | succ n =>
      obtain ⟨s', hscan, hs', hlen⟩ := ih (n := n) h
      exact ⟨s', hscan, hs', Nat.le_succ_of_le hlen⟩

theorem chunk_dropWhile {s : List Byte} (h : Chunk t s) : Chunk t (s.dropWhile isSPACECHAR) := by
  induction s with
  | nil => exact h
  | cons b s ih =>
    by_cases hspace : isSPACECHAR b
    · rw [List.dropWhile_cons_of_pos hspace]
      have hs := (chunk_cons.mp h).2.2.2.2.2
      rw [len_of_space t hspace] at hs
      exact ih hs
    · rwa [List.dropWhile_cons_of_neg hspace]

/-- Either there are only spaces up to the tag, or there is a token in front of it. -/
theorem getNextToken_chunk {docTypeClose : DocTypeClose} {s : List Byte} (h : Chunk t s) (r : List Byte) :
    getNextToken t docTypeClose (s ++ chr '<' :: r) = getNextToken t docTypeClose (chr '<' :: r) ∨
      ∃ s', (getNextToken t docTypeClose (s ++ chr '<' :: r)).rest = s' ++ chr '<' :: r ∧
        Chunk t s' ∧ s'.length < s.length ∧
        ((getNextToken t docTypeClose (s ++ chr '<' :: r)).type = .eTokenText ∨
          (getNextToken t docTypeClose (s ++ chr '<' :: r)).type = .eTokenEquals) := by
  have hchunk := chunk_dropWhile h
  have hlen := (List.dropWhile_sublist isSPACECHAR (l := s)).length_le
  have hspaces : ∀ b ∈ s.takeWhile isSPACECHAR, isSPACECHAR b := fun b => List.mem_takeWhile_imp
  rw [← List.takeWhile_append_dropWhile (p := isSPACECHAR) (l := s), List.append_assoc,
    getNextToken_spaces hspaces, List.takeWhile_append_dropWhile]
  cases hs : s.dropWhile isSPACECHAR with
  | nil => exact .inl rfl
  | cons b s' =>
    right
    rw [hs] at hchunk hlen
    obtain ⟨h0, hquote, happos, hopen, hclose, hs'⟩ := chunk_cons.mp hchunk
    have hspace : ¬isSPACECHAR b := by
      have := List.head?_dropWhile_not isSPACECHAR s
      rw [hs] at this
      simpa using this
    obtain ⟨rest, hscan, hrest, hle⟩ := scanText_chunk hs' r
    rw [List.cons_append, getNextToken_of_ne h0 hspace hopen]
    by_cases hequals : b = chr '='
    · subst hequals
      rw [t.len_of_lt h0 (by decide)] at hs'
      exact ⟨s', rfl, hs', hlen, .inr rfl⟩
    · have hshort : ¬(b = chr '/' ∧ (s' ++ chr '<' :: r).head? = some (chr '>')) := by
        rintro ⟨rfl, hhead⟩
        rw [t.len_of_lt h0 (by decide)] at hs'
        cases s' with
        | nil => exact absurd (Option.some.inj hhead) (by decide)
        | cons c s' => exact (chunk_cons.mp hs').2.2.2.2.1 (Option.some.inj hhead)
      have htoken : standardToken t b (s' ++ chr '<' :: r) = textToken t b (s' ++ chr '<' :: r) := by
        simp only [standardToken, hquote, happos, hopen, hclose, hequals, Bool.or_eq_true,
          Bool.and_eq_true, decide_eq_true_eq, or_self, if_false, hshort]
      rw [htoken]
      exact ⟨rest, hscan, hrest, lt_of_le_of_lt hle hlen, .inl rfl⟩

theorem escape_space : ∀ {b : Byte}, isSPACECHAR b → escape b = [b] := by decide

theorem escape_not_space : ∀ {b : Byte}, ¬isSPACECHAR b →
    (escape b).head?.all (fun c => !isSPACECHAR c) ∧
      (escape b).getLast?.all (fun c => !isSPACECHAR c) := by decide

theorem dropWhile_escape (value : List Byte) :
    (value.flatMap escape).dropWhile isSPACECHAR =
      (value.dropWhile isSPACECHAR).flatMap escape := by
  induction value with
  | nil => rfl
  | cons b value ih =>
    by_cases hspace : isSPACECHAR b
    · rw [List.dropWhile_cons_of_pos hspace, List.flatMap_cons, escape_space hspace,
        List.singleton_append, List.dropWhile_cons_of_pos hspace, ih]
    · rw [List.dropWhile_cons_of_neg hspace, List.flatMap_cons]
      have hhead := (escape_not_space hspace).1
      obtain ⟨c, s, hs⟩ := List.exists_cons_of_ne_nil (escape_ne_nil b)
      rw [hs] at hhead ⊢
      rw [List.cons_append, List.dropWhile_cons_of_neg (by simpa using hhead)]

theorem rdropWhile_escape (value : List Byte) :
    (value.flatMap escape).rdropWhile isSPACECHAR =
      (value.rdropWhile isSPACECHAR).flatMap escape := by
  induction value using List.reverseRecOn with
  | nil => rfl
  | append_singleton value b ih =>
    rw [List.flatMap_append, List.flatMap_singleton]
    by_cases hspace : isSPACECHAR b
    · rw [List.rdropWhile_concat_pos _ _ _ hspace, escape_space hspace,
        List.rdropWhile_concat_pos _ _ _ hspace, ih]
    · rw [List.rdropWhile_concat_neg _ _ _ hspace, List.flatMap_append, List.flatMap_singleton]
      have hlast := (escape_not_space hspace).2
      rw [← List.dropLast_append_getLast (escape_ne_nil b), ← List.append_assoc,
        List.rdropWhile_concat_neg]
      rw [List.getLast?_eq_some_getLast (escape_ne_nil b)] at hlast
      simpa using hlast

theorem trim_escape (value : List Byte) :
    trim (value.flatMap escape) = (trim value).flatMap escape := by
  rw [trim, dropWhile_escape, rdropWhile_escape, trim]

theorem rdropWhile_spaces {w : List Byte} (hw : ∀ b ∈ w, isSPACECHAR b) (s : List Byte) :
    (s ++ w).rdropWhile isSPACECHAR = s.rdropWhile isSPACECHAR := by
  induction w using List.reverseRecOn with
  | nil => rw [List.append_nil]
  | append_singleton w b ih =>
    rw [← List.append_assoc, List.rdropWhile_concat_pos _ _ _ (hw b (by simp))]
    exact ih fun c hc => hw c (by simp [hc])

theorem trim_spaces {w₁ w₂ : List Byte} (hw₁ : ∀ b ∈ w₁, isSPACECHAR b)
    (hw₂ : ∀ b ∈ w₂, isSPACECHAR b) (s : List Byte) : trim (w₁ ++ s ++ w₂) = trim s := by
  rw [trim, trim, List.append_assoc, dropWhile_spaces hw₁, List.dropWhile_append]
  split
  · next hempty =>
    rw [List.isEmpty_iff] at hempty
    rw [hempty, List.dropWhile_eq_nil_iff.mpr hw₂]
  · exact rdropWhile_spaces hw₂ _

theorem encoded_dropWhile {s : List Byte} (h : Encoded t s) :
    Encoded t (s.dropWhile isSPACECHAR) := by
  induction s with
  | nil => exact h
  | cons b s ih =>
    by_cases hspace : isSPACECHAR b
    · rw [List.dropWhile_cons_of_pos hspace]
      have hs := (encoded_cons.mp h).2
      rw [len_of_space t hspace] at hs
      exact ih hs
    · rwa [List.dropWhile_cons_of_neg hspace]

theorem lt_of_space : ∀ {b : Byte}, isSPACECHAR b → ¬(0x80#8 ≤ b) := by decide

theorem encodedFrom_of_concat {n : Nat} {s : List Byte} {b : Byte} (hspace : isSPACECHAR b)
    (h : encodedFrom t n (s ++ [b])) : encodedFrom t n s := by
  induction s generalizing n with
  | nil =>
    cases n with
    | zero => rfl
    | succ n => exact absurd (encodedFrom_succ.mp h).1 (lt_of_space hspace)
  | cons c s ih =>
    cases n with
    | zero => exact encoded_cons.mpr ⟨(encoded_cons.mp h).1, ih (encoded_cons.mp h).2⟩
    | succ n => exact encodedFrom_succ.mpr ⟨(encodedFrom_succ.mp h).1, ih (encodedFrom_succ.mp h).2⟩

theorem encoded_rdropWhile {s : List Byte} (h : Encoded t s) :
    Encoded t (s.rdropWhile isSPACECHAR) := by
  induction s using List.reverseRecOn with
  | nil => exact h
  | append_singleton s b ih =>
    by_cases hspace : isSPACECHAR b
    · rw [List.rdropWhile_concat_pos _ _ _ hspace]
      exact ih (encodedFrom_of_concat hspace h)
    · rwa [List.rdropWhile_concat_neg _ _ _ hspace]

theorem encoded_trim {s : List Byte} (h : Encoded t s) : Encoded t (trim s) :=
  encoded_rdropWhile (encoded_dropWhile h)

/-- What has been read since the last tag becomes a text, if it is more than spaces. -/
theorem maybeAddTxT_text {d : XMLNode} {x : XML} {w₁ value w₂ r : List Byte}
    (hw₁ : ∀ b ∈ w₁, isSPACECHAR b) (hvalue : Encoded t value) (hw₂ : ∀ b ∈ w₂, isSPACECHAR b)
    (hx : x.lpszText = some (w₁ ++ value.flatMap escape ++ w₂ ++ r)) :
    maybeAddTxT t d x r =
      (some (d.addAll (trimmedText value)), { x with lpszText := none }) := by
  have htake : (w₁ ++ value.flatMap escape ++ w₂ ++ r).take
      ((w₁ ++ value.flatMap escape ++ w₂ ++ r).length - r.length) =
        w₁ ++ value.flatMap escape ++ w₂ := by
    rw [@List.length_append _ _ r, Nat.add_sub_cancel, List.take_left]
  have htrim : trim (w₁ ++ value.flatMap escape ++ w₂) = (trim value).flatMap escape := by
    rw [trim_spaces hw₁ hw₂, trim_escape]
  rw [maybeAddTxT, hx]
  simp only [htake, htrim]
  by_cases hempty : trim value = []
  · simp [hempty, trimmedText]
  · have hpos : ((trim value).flatMap escape).length ≠ 0 := by
      obtain ⟨b, s, hs⟩ := List.exists_cons_of_ne_nil hempty
      simp [hs, escape_ne_nil]
    obtain ⟨tail, htail⟩ := List.rdropWhile_prefix isSPACECHAR (l := value.dropWhile isSPACECHAR)
    have hbegun : (w₁ ++ value.flatMap escape ++ w₂ ++ r).dropWhile isSPACECHAR =
        (trim value).flatMap escape ++ (tail.flatMap escape ++ (w₂ ++ r)) := by
      rw [List.append_assoc, List.append_assoc, dropWhile_spaces hw₁, List.dropWhile_append,
        dropWhile_escape, ← htail, ← trim, List.flatMap_append, if_neg, List.append_assoc]
      simp only [List.isEmpty_iff_length_eq_zero, List.length_append]
      omega
    rw [if_neg hpos, hbegun, fromXMLString_escape (encoded_trim hvalue)]
    simp [trimmedText, hempty, XMLNode.addAll_singleton]

end Text

-- ---------------------------------------------------------------------------
-- Start tags
-- ---------------------------------------------------------------------------

/-- `ParseXMLElement` returns `r` in the end. -/
abbrev Parses (t : ByteTable) (f : Frame) (r : Returned) : Prop :=
  Descent.Runs (parseToken t) addParsedChild f r

section StartTags

variable {t : ByteTable} {d : XMLNode} {hasParent : Bool} {status : Status} {x : XML} {r : Returned}

theorem parses_of_token_eq {a b : List Byte}
    (h : getNextToken t x.docTypeClose a = getNextToken t x.docTypeClose b)
    (hb : Parses t ⟨d, hasParent, status, { x with lpXML := b }⟩ r) :
    Parses t ⟨d, hasParent, status, { x with lpXML := a }⟩ r := by
  refine Descent.Runs.of_step_eq ?_ hb
  simp only [parseToken, h]

def attributeBody (a : XMLAttribute) : List Byte :=
  match a.lpszValue with
  | some value => a.lpszName ++ chr '=' :: 34#8 :: (value.flatMap escape ++ [34#8])
  | none => a.lpszName

def attributesText (attributes : List XMLAttribute) : List Byte :=
  attributes.flatMap fun a => chr ' ' :: attributeBody a

theorem stringDup_append {name : List Byte} (h : name ≠ []) (s : List Byte) :
    stringDup (name ++ s) name.length = name := by
  rw [stringDup, if_neg (by simpa using h), List.take_left]

theorem withoutMark_append {name : List Byte} (h : IsName name) (s : List Byte) :
    withoutMark d (name ++ s) name.length = name.length := by
  have hpos := List.length_pos_of_ne_nil h.ne_nil
  have hmark : ∀ {b : Byte}, nameByte b → b ≠ chr '?' := by decide
  have hlast := hmark (h.nameByte _ (List.getLast_mem h.ne_nil))
  have hget : (name ++ s)[name.length - 1]? = some (name.getLast h.ne_nil) := by
    rw [List.getElem?_append_left (by omega), ← List.getLast?_eq_getElem?,
      List.getLast?_eq_some_getLast h.ne_nil]
  simp [withoutMark, hget, hlast]

@[simp] theorem afterName_equals (s : List Byte) : afterName (chr '=' :: s) = chr '=' :: s := by
  simp +decide [afterName]

@[simp] theorem afterName_close (s : List Byte) : afterName (chr '>' :: s) = chr '>' :: s := by
  simp +decide [afterName]

@[simp] theorem afterName_slash (s : List Byte) : afterName (chr '/' :: s) = chr '/' :: s := by
  simp +decide [afterName]

theorem parses_name {name s : List Byte} (hname : IsName name) (hs : EndsName s)
    (h : Parses t ⟨d, hasParent, .eAttribEquals (name ++ s) name.length,
      { x with lpXML := afterName s }⟩ r) :
    Parses t ⟨d, hasParent, .eAttribName, { x with lpXML := name ++ s }⟩ r :=
  .goOn (by simp [parseToken, getNextToken_name hname hs, attribName]) h

theorem parses_equals {lpszTemp s : List Byte} {cbTemp : Nat}
    (h : Parses t ⟨d, hasParent, .eAttribValue lpszTemp cbTemp, { x with lpXML := s }⟩ r) :
    Parses t ⟨d, hasParent, .eAttribEquals lpszTemp cbTemp, { x with lpXML := chr '=' :: s }⟩ r :=
  .goOn (by simp [parseToken, getNextToken_equals, attribEquals]) h

theorem withoutMark_quoted (value s : List Byte) :
    withoutMark d (34#8 :: (value ++ 34#8 :: s)) (value.length + 2) = value.length + 2 := by
  have hquote : (34#8 : Byte) ≠ chr '?' := by decide
  simp [withoutMark, hquote]

theorem parses_value {name value s' s : List Byte} (hname : IsName name)
    (hvalue : Encoded t value)
    (h : Parses t ⟨d.addAttribute name (some value), hasParent, .eAttribName,
      { x with lpXML := s }⟩ r) :
    Parses t ⟨d, hasParent, .eAttribValue (name ++ s') name.length,
      { x with lpXML := 34#8 :: (value.flatMap escape ++ 34#8 :: s) }⟩ r := by
  refine .goOn ?_ h
  simp only [parseToken, getNextToken_quoted hvalue, attribValue, withoutMark_quoted,
    List.tail_cons, Nat.add_sub_cancel, fromXMLString_escape hvalue, addValue,
    stringDup_append hname.ne_nil]
  simp [hname.ne_nil]

theorem parses_valued {name value : List Byte} (hname : IsName name) (hvalue : Encoded t value)
    {s : List Byte}
    (h : Parses t ⟨d.addAttribute name (some value), hasParent, .eAttribName,
      { x with lpXML := s }⟩ r) :
    Parses t ⟨d, hasParent, .eAttribName,
      { x with lpXML := name ++ chr '=' :: 34#8 :: (value.flatMap escape ++ 34#8 :: s) }⟩ r := by
  refine parses_name hname (by simp [EndsName]) ?_
  rw [afterName_equals]
  exact parses_equals (parses_value hname hvalue h)

def EndsAttribute (t : ByteTable) (docTypeClose : DocTypeClose) (s : List Byte) : Prop :=
  (getNextToken t docTypeClose s).type = .eTokenText ∨
    (getNextToken t docTypeClose s).type = .eTokenCloseTag ∨
    (getNextToken t docTypeClose s).type = .eTokenShortHandClose

/-- The attribute is added when the next token shows that it has no value. -/
theorem parses_unvalued {name : List Byte} (hname : IsName name) {s : List Byte}
    (hs : EndsName s) (hnext : EndsAttribute t x.docTypeClose s)
    (h : Parses t ⟨d.addAttribute name none, hasParent, .eAttribName, { x with lpXML := s }⟩ r) :
    Parses t ⟨d, hasParent, .eAttribName, { x with lpXML := name ++ s }⟩ r := by
  refine parses_name hname hs (parses_of_token_eq (getNextToken_afterName s) ?_)
  refine .of_step_eq ?_ h
  obtain htype | htype | htype := hnext
  · simp [parseToken, htype, attribEquals, attribName, stringDup_append hname.ne_nil]
  · simp [parseToken, htype, attribEquals, attribName, withoutMark_append hname,
      stringDup_append hname.ne_nil, hname.ne_nil]
  · simp [parseToken, htype, attribEquals, attribName, withoutMark_append hname,
      stringDup_append hname.ne_nil, hname.ne_nil]

def ClosesTag : List Byte → Prop
  | [] => False
  | c :: s => c = chr '>' ∨ c = chr '/' ∧ s.head? = some (chr '>')

theorem endsName_of_closesTag {s : List Byte} (h : ClosesTag s) : EndsName s := by
  cases s with
  | nil => exact h
  | cons c s => exact h.elim (fun h => .inr (.inl h)) fun h => .inr (.inr (.inr h))

theorem endsAttribute_of_closesTag {docTypeClose : DocTypeClose} {s : List Byte} (h : ClosesTag s) :
    EndsAttribute t docTypeClose s := by
  obtain _ | ⟨c, s⟩ := s
  · exact h.elim
  · obtain rfl | ⟨rfl, hs⟩ := h
    · exact .inr (.inl (by rw [getNextToken_close]))
    · obtain _ | ⟨c, s⟩ := s
      · simp at hs
      · cases hs
        exact .inr (.inr (by rw [getNextToken_shortHand]))

theorem endsName_attributes {attributes : List XMLAttribute} {s : List Byte} (hs : ClosesTag s) :
    EndsName (attributesText attributes ++ s) := by
  cases attributes with
  | nil => exact endsName_of_closesTag hs
  | cons a attributes => exact .inl rfl

theorem getNextToken_attribute {a : XMLAttribute} (ha : a.WellFormed t)
    {docTypeClose : DocTypeClose} {s : List Byte} (hs : EndsName s) :
    (getNextToken t docTypeClose (attributeBody a ++ s)).type = .eTokenText := by
  unfold attributeBody
  cases a.lpszValue with
  | none => rw [getNextToken_name ha.name hs]
  | some value =>
    dsimp only
    rw [List.append_assoc, getNextToken_name ha.name (by simp [EndsName])]

theorem getNextToken_attributes {a : XMLAttribute} (attributes : List XMLAttribute)
    (docTypeClose : DocTypeClose) (s : List Byte) :
    getNextToken t docTypeClose (attributesText (a :: attributes) ++ s) =
      getNextToken t docTypeClose (attributeBody a ++ (attributesText attributes ++ s)) := by
  rw [attributesText, List.flatMap_cons, ← attributesText, List.append_assoc, List.cons_append]
  exact getNextToken_spaces (w := [chr ' ']) (by simp [isSPACECHAR]) _

theorem endsAttribute_attributes {attributes : List XMLAttribute}
    (h : ∀ a ∈ attributes, a.WellFormed t) {docTypeClose : DocTypeClose} {s : List Byte}
    (hs : ClosesTag s) :
    EndsAttribute t docTypeClose (attributesText attributes ++ s) := by
  cases attributes with
  | nil => exact endsAttribute_of_closesTag hs
  | cons a attributes =>
    refine .inl ?_
    rw [getNextToken_attributes]
    exact getNextToken_attribute (h a (by simp)) (endsName_attributes hs)

/-- The attributes up to the end of the tag, or such as all have a value. -/
theorem parses_attributes {attributes : List XMLAttribute}
    (hattributes : ∀ a ∈ attributes, a.WellFormed t) {s : List Byte}
    (hs : (∀ a ∈ attributes, a.lpszValue.isSome) ∨ ClosesTag s)
    (h : Parses t ⟨d.addAttributes attributes, hasParent, .eAttribName, { x with lpXML := s }⟩ r) :
    Parses t ⟨d, hasParent, .eAttribName, { x with lpXML := attributesText attributes ++ s }⟩ r := by
  induction attributes generalizing d with
  | nil => simpa [attributesText] using h
  | cons a attributes ih =>
    obtain ⟨name, value⟩ := a
    have ha := hattributes ⟨name, value⟩ (by simp)
    have htail : ∀ b ∈ attributes, b.WellFormed t := fun b hb => hattributes b (by simp [hb])
    have hrest := ih (d := d.addAttribute name value) htail
      (hs.imp_left fun hsome b hb => hsome b (by simp [hb])) (by simpa using h)
    refine parses_of_token_eq (getNextToken_attributes attributes _ s) ?_
    cases value with
    | none =>
      replace hs := hs.resolve_left fun hsome => absurd (hsome _ List.mem_cons_self) (by simp)
      exact parses_unvalued ha.name (endsName_attributes hs) (endsAttribute_attributes htail hs) hrest
    | some value =>
      have hbody : attributeBody ⟨name, some value⟩ ++ (attributesText attributes ++ s) =
          name ++ chr '=' :: 34#8 ::
            (value.flatMap escape ++ 34#8 :: (attributesText attributes ++ s)) := by
        simp [attributeBody]
      rw [hbody]
      exact parses_valued ha.name (ha.value value rfl) hrest

end StartTags

-- ---------------------------------------------------------------------------
-- Between the tags of an element
-- ---------------------------------------------------------------------------

/-- What has been read since the last tag: a text as it is written, and spaces around it. -/
structure Pending (t : ByteTable) where
  before : List Byte
  value : List Byte
  after : List Byte
  before_spaces : ∀ b ∈ before, isSPACECHAR b
  encoded : Encoded t value
  after_spaces : ∀ b ∈ after, isSPACECHAR b

namespace Pending

variable {t : ByteTable}

def text (p : Pending t) : List Byte := p.before ++ p.value.flatMap escape ++ p.after

def spaces (t : ByteTable) (w : List Byte) (hw : ∀ b ∈ w, isSPACECHAR b) : Pending t where
  before := w
  value := []
  after := []
  before_spaces := hw
  encoded := rfl
  after_spaces := by simp

def followedBy (p : Pending t) (w : List Byte) (hw : ∀ b ∈ w, isSPACECHAR b) : Pending t where
  before := p.before
  value := p.value
  after := p.after ++ w
  before_spaces := p.before_spaces
  encoded := p.encoded
  after_spaces := by
    intro b hb
    exact (List.mem_append.mp hb).elim (p.after_spaces b) (hw b)

@[simp] theorem text_spaces (w : List Byte) (hw : ∀ b ∈ w, isSPACECHAR b) :
    (spaces t w hw).text = w := by
  simp [text, spaces]

@[simp] theorem text_followedBy (p : Pending t) (w : List Byte) (hw : ∀ b ∈ w, isSPACECHAR b) :
    (p.followedBy w hw).text = p.text ++ w := by
  simp [text, followedBy]

@[simp] theorem value_spaces (w : List Byte) (hw : ∀ b ∈ w, isSPACECHAR b) :
    (spaces t w hw).value = [] := rfl

@[simp] theorem value_followedBy (p : Pending t) (w : List Byte) (hw : ∀ b ∈ w, isSPACECHAR b) :
    (p.followedBy w hw).value = p.value := rfl

theorem chunk_text (p : Pending t) : Chunk t p.text :=
  chunkFrom_append
    (chunkFrom_append (chunk_spaces p.before_spaces) (chunkFrom_escape p.encoded))
    (chunk_spaces p.after_spaces)

end Pending

section Elements

variable {t : ByteTable} {d : XMLNode} {hasParent : Bool} {x : XML} {r : Returned}

theorem parses_chunk {s u : List Byte} (hs : Chunk t s)
    (h : Parses t ⟨d, hasParent, .eOutsideTag, { x with lpXML := chr '<' :: u }⟩ r) :
    Parses t ⟨d, hasParent, .eOutsideTag, { x with lpXML := s ++ chr '<' :: u }⟩ r := by
  induction hn : s.length using Nat.strong_induction_on generalizing s with
  | _ n ih =>
    obtain heq | ⟨s', hrest, hs', hlt, htype⟩ := @getNextToken_chunk t x.docTypeClose _ hs u
    · exact parses_of_token_eq heq h
    · have hnext := ih s'.length (by omega) hs' rfl
      refine .goOn ?_ hnext
      obtain htype | htype := htype
      · simp [parseToken, htype, hrest, outsideTag]
      · simp [parseToken, htype, hrest, outsideTag]

theorem afterText_pending (p : Pending t) {u : List Byte} {next : XMLNode → XML → Outcome}
    (hx : x.lpszText = some (p.text ++ u)) :
    afterText t d u x next = next (d.addAll (trimmedText p.value)) { x with lpszText := none } := by
  rw [afterText, maybeAddTxT_text p.before_spaces p.encoded p.after_spaces hx]

theorem parses_child (p : Pending t) {name s : List Byte} (hname : IsElementName name)
    (hs : EndsName s) {node : XMLNode} {y : XML}
    (hchild : Parses t ⟨⟨name, false, [], []⟩, true, .eAttribName,
      { x with lpXML := s, lpszText := none }⟩ ⟨true, node, y⟩) (hy : y.cbEndTag = 0)
    (h : Parses t ⟨(d.addAll (trimmedText p.value)).add (.child node), hasParent, .eOutsideTag, y⟩ r) :
    Parses t ⟨d, hasParent, .eOutsideTag,
      { x with
        lpXML := p.text ++ chr '<' :: (name ++ s)
        lpszText := some (p.text ++ chr '<' :: (name ++ s)) }⟩ r := by
  refine parses_chunk (x := { x with lpszText := some _ }) p.chunk_text ?_
  have hcall := parses_of_token_eq (x := { x with lpszText := none }) (getNextToken_afterName s) hchild
  refine .call (c := ⟨d.addAll (trimmedText p.value), hasParent⟩) ?_ hcall
    (by simp [addParsedChild, hy]) h
  simp [parseToken, getNextToken_start hname hs, outsideTag]
  rw [afterText_pending p rfl]
  simp [openTag, getNextToken_name hname.toIsName hs, stringDup_append hname.ne_nil]

theorem myTagCompare_self {name : List Byte} (h : name ≠ []) (s : List Byte) :
    myTagCompare name (name ++ chr '>' :: s) = false := by
  have hcompare : tcsnicmp name (name ++ chr '>' :: s) = true := by simp [tcsnicmp, tcsicmp]
  simp [myTagCompare, h, hcompare]

theorem parses_end (p : Pending t) (hname : IsName d.lpszName) {s : List Byte} :
    Parses t ⟨d, hasParent, .eOutsideTag,
      { x with
        lpXML := p.text ++ chr '<' :: chr '/' :: (d.lpszName ++ chr '>' :: s)
        lpszText := some (p.text ++ chr '<' :: chr '/' :: (d.lpszName ++ chr '>' :: s)) }⟩
      ⟨true, d.addAll (trimmedText p.value), { x with lpXML := s, lpszText := some s }⟩ := by
  refine parses_chunk (x := { x with lpszText := some _ }) p.chunk_text (.ret ?_)
  simp [parseToken, getNextToken_end, outsideTag]
  rw [afterText_pending p rfl]
  have hs : EndsName (chr '>' :: s) := by simp [EndsName]
  have hcompare := myTagCompare_self hname.ne_nil s
  simp [closeTag, getNextToken_name hname hs, getNextToken_close, XMLNode.addAll, hcompare]

theorem tcsstr_append {pattern value : List Byte} (hpattern : pattern ≠ [])
    (h : tcsstr pattern (value ++ pattern) = some pattern) (s : List Byte) :
    tcsstr pattern (value ++ (pattern ++ s)) = some (pattern ++ s) := by
  induction value with
  | nil =>
    obtain ⟨c, tail, rfl⟩ := List.exists_cons_of_ne_nil hpattern
    simp [tcsstr]
  | cons b value ih =>
    rw [List.cons_append, tcsstr] at h
    have hlonger : pattern.length ≤ (b :: (value ++ pattern)).length := by
      simp only [List.length_cons, List.length_append]
      omega
    split at h
    · have hlen := congrArg List.length (Option.some.inj h)
      simp only [List.length_cons, List.length_append] at hlen
      omega
    · next hbegins =>
      rw [List.cons_append, tcsstr, if_neg, ih h]
      rw [List.isPrefixOf_iff_prefix] at hbegins ⊢
      intro hbegins'
      refine hbegins (List.prefix_of_prefix_length_le hbegins' ?_ hlonger)
      exact ⟨s, by simp⟩

theorem getNextToken_clear {docTypeClose : DocTypeClose} {openTag closeTag : List Byte}
    (htag : ⟨openTag, closeTag⟩ ∈ XMLClearTags .bracket) (hopen : openTag ≠ docTypeOpen)
    (s : List Byte) :
    getNextToken t docTypeClose (openTag ++ s) =
      ⟨.eTokenClear ⟨openTag, closeTag⟩, openTag ++ s, 0, s⟩ := by
  simp only [XMLClearTags, List.mem_cons, List.not_mem_nil, or_false, ALLXMLClearTag.mk.injEq] at htag
  obtain ⟨rfl, rfl⟩ | ⟨rfl, -⟩ | ⟨rfl, rfl⟩ | ⟨rfl, rfl⟩ | ⟨rfl, rfl⟩ := htag
  case inr.inl => exact absurd rfl hopen
  all_goals
    simp [getNextToken, XMLClearTags, tcsnicmp, tcsicmp, str, chr, toLower, isSPACECHAR, docTypeOpen]

theorem clearTag_ne_nil {openTag closeTag : List Byte}
    (htag : ⟨openTag, closeTag⟩ ∈ XMLClearTags .bracket) (hopen : openTag ≠ docTypeOpen) :
    (∃ s, openTag = chr '<' :: s) ∧ closeTag ≠ [] := by
  simp only [XMLClearTags, List.mem_cons, List.not_mem_nil, or_false, ALLXMLClearTag.mk.injEq] at htag
  obtain ⟨rfl, rfl⟩ | ⟨rfl, -⟩ | ⟨rfl, rfl⟩ | ⟨rfl, rfl⟩ | ⟨rfl, rfl⟩ := htag
  case inr.inl => exact absurd rfl hopen
  all_goals exact ⟨⟨_, rfl⟩, by simp [str]⟩

theorem parseClearTag_append {openTag value closeTag s : List Byte}
    (hclear : ClearWellFormed openTag value closeTag) (hx : x.lpXML = value ++ (closeTag ++ s)) :
    parseClearTag t d x ⟨openTag, closeTag⟩ =
      some (some (d.add (.clear openTag value closeTag)), { x with lpXML := s }) := by
  have hclose := tcsstr_append (clearTag_ne_nil hclear.tag hclear.not_docType).2 hclear.closed s
  have hcb : (value ++ (closeTag ++ s)).length - (closeTag ++ s).length = value.length := by
    rw [List.length_append, Nat.add_sub_cancel]
  have hdrop : (value ++ (closeTag ++ s)).drop (value.length + closeTag.length) = s := by
    rw [← List.append_assoc, ← List.length_append, List.drop_left]
  have hwithin : ¬((value ++ (closeTag ++ s)).length < value.length + closeTag.length) := by
    simp only [List.length_append]
    omega
  simp only [parseClearTag, findClose, docTypeCloseAfter, hclear.not_docType, hx, hclose, hcb, hdrop,
    hwithin, stringDup_append hclear.ne_nil, Option.map_some, if_false, decide_false, Bool.false_and,
    Bool.false_eq_true]

theorem parses_clear (p : Pending t) {openTag value closeTag s : List Byte}
    (hclear : ClearWellFormed openTag value closeTag)
    (h : Parses t ⟨(d.addAll (trimmedText p.value)).add (.clear openTag value closeTag), hasParent,
      .eOutsideTag, { x with lpXML := s, lpszText := some s }⟩ r) :
    Parses t ⟨d, hasParent, .eOutsideTag,
      { x with
        lpXML := p.text ++ (openTag ++ (value ++ (closeTag ++ s)))
        lpszText := some (p.text ++ (openTag ++ (value ++ (closeTag ++ s)))) }⟩ r := by
  have htoken := @getNextToken_clear t x.docTypeClose _ _ hclear.tag hclear.not_docType
    (value ++ (closeTag ++ s))
  obtain ⟨⟨tail, rfl⟩, -⟩ := clearTag_ne_nil hclear.tag hclear.not_docType
  refine parses_chunk (x := { x with lpszText := some _ }) p.chunk_text (.goOn ?_ h)
  rw [List.cons_append] at htoken
  simp [parseToken, htoken, outsideTag]
  have hparse := parseClearTag_append (t := t) (d := d.addAll (trimmedText p.value)) (s := s)
    (x := { x with lpXML := value ++ (closeTag ++ s), lpszText := none }) hclear rfl
  rw [afterText_pending p rfl, clearTag, hparse]

end Elements

-- ---------------------------------------------------------------------------
-- Trees
-- ---------------------------------------------------------------------------

section Trees

variable {t : ByteTable} {x : XML}

theorem XMLNode.wellFormed_iff (node : XMLNode) :
    node.WellFormed t ↔ IsElementName node.lpszName ∧ node.isDeclaration = false ∧
      (∀ a ∈ node.pAttribute, a.WellFormed t) ∧ contentsWellFormed t node.contents := by
  cases node
  rfl

theorem XMLNode.trimmed_eq (node : XMLNode) :
    node.trimmed = { node with contents := trimmedContents node.contents } := by
  cases node
  rfl

theorem not_beginsWithText_append {cs ds : List XMLContent} (hcs : ¬beginsWithText cs)
    (hds : ¬beginsWithText ds) : ¬beginsWithText (cs ++ ds) := by
  cases cs with
  | nil => exact hds
  | cons c cs => cases c <;> exact hcs

theorem contentsWellFormed_append {cs ds : List XMLContent} (hcs : contentsWellFormed t cs)
    (hds : contentsWellFormed t ds) (hbegin : ¬beginsWithText ds) :
    contentsWellFormed t (cs ++ ds) := by
  induction cs with
  | nil => exact hds
  | cons c cs ih =>
    cases c with
    | text value => exact ⟨hcs.1, not_beginsWithText_append hcs.2.1 hbegin, ih hcs.2.2⟩
    | clear openTag value closeTag => exact ⟨hcs.1, ih hcs.2⟩
    | child node => exact ⟨hcs.1, ih hcs.2⟩

theorem trimmedContents_append (cs ds : List XMLContent) :
    trimmedContents (cs ++ ds) = trimmedContents cs ++ trimmedContents ds := by
  induction cs with
  | nil => rfl
  | cons c cs ih => cases c <;> simp [trimmedContents, ih]

theorem beginsWithText_trimmedContents {cs : List XMLContent} (h : contentsWellFormed t cs)
    (hbegin : ¬beginsWithText cs) : ¬beginsWithText (trimmedContents cs) := by
  cases cs with
  | nil => exact hbegin
  | cons c cs =>
    cases c with
    | text value => exact absurd rfl hbegin
    | _ => simp [trimmedContents, beginsWithText]

theorem wellFormed_trimmed_of_contents {node : XMLNode} (h : node.WellFormed t)
    (hcontents : contentsWellFormed t (trimmedContents node.contents)) :
    node.trimmed.WellFormed t := by
  cases node
  exact ⟨h.1, h.2.1, h.2.2.1, hcontents⟩

theorem contentsWellFormed_trimmed {cs : List XMLContent} (h : contentsWellFormed t cs) :
    contentsWellFormed t (trimmedContents cs) := by
  induction cs using contents_induction with
  | nil => trivial
  | text value cs ih =>
    obtain ⟨hvalue, hbegin, hcs⟩ := h
    rw [trimmedContents, trimmedText]
    split
    · exact ih hcs
    · exact ⟨encoded_trim hvalue, beginsWithText_trimmedContents hcs hbegin, ih hcs⟩
  | clear openTag value closeTag cs ih => exact ⟨h.1, ih h.2⟩
  | child node cs ihnode ih =>
    exact ⟨wellFormed_trimmed_of_contents h.1 (ihnode (node.wellFormed_iff.mp h.1).2.2.2), ih h.2⟩

theorem wellFormed_trimmed {node : XMLNode} (h : node.WellFormed t) : node.trimmed.WellFormed t :=
  wellFormed_trimmed_of_contents h (contentsWellFormed_trimmed (node.wellFormed_iff.mp h).2.2.2)

theorem toXMLString_eq {value : List Byte} (h : Encoded t value) :
    toXMLString t value = value.flatMap escape := toXMLStringFrom_eq h

theorem attributeString_eq {a : XMLAttribute} (h : a.WellFormed t) :
    attributeString t a = attributeBody a ++ [chr ' '] := by
  rw [attributeString, attributeBody, if_neg h.name.ne_nil]
  cases hvalue : a.lpszValue with
  | none => rfl
  | some value => simp [toXMLString_eq (h.value value hvalue)]

/-- The space behind an attribute can be read as one in front of the next. -/
theorem attributesText_eq {attributes : List XMLAttribute} (h : ∀ a ∈ attributes, a.WellFormed t) :
    chr ' ' :: attributes.flatMap (attributeString t) = attributesText attributes ++ [chr ' '] := by
  induction attributes with
  | nil => rfl
  | cons a attributes ih =>
    have hrest := ih fun b hb => h b (by simp [hb])
    rw [List.flatMap_cons, attributeString_eq (h a (by simp)), List.append_assoc,
      List.singleton_append, hrest, attributesText, attributesText, List.flatMap_cons]
    simp

def elementRest (t : ByteTable) (nFormat : Option Nat) (node : XMLNode) (s : List Byte) : List Byte :=
  if node.contents.isEmpty then chr '/' :: chr '>' :: (newline nFormat ++ s)
  else chr '>' :: (newline nFormat ++ (contentsString t nFormat (nFormat.map (· + 1)) node.contents ++
    (indentation nFormat ++ chr '<' :: chr '/' :: (node.lpszName ++ chr '>' :: (newline nFormat ++ s)))))

theorem closesTag_elementRest (nFormat : Option Nat) (node : XMLNode) (s : List Byte) :
    ClosesTag (elementRest t nFormat node s) := by
  unfold elementRest
  split
  · exact .inr ⟨rfl, rfl⟩
  · exact .inl rfl

theorem createXMLStringR_append {node : XMLNode} (h : node.WellFormed t) (nFormat : Option Nat)
    (s : List Byte) :
    node.createXMLStringR t nFormat ++ s =
      indentation nFormat ++ chr '<' :: (node.lpszName ++
        (attributesText node.pAttribute ++ elementRest t nFormat node s)) := by
  obtain ⟨hname, hdeclaration, hattributes, -⟩ := node.wellFormed_iff.mp h
  have htext := attributesText_eq hattributes
  have htag : (indentation nFormat ++ [chr '<'] ++ [] ++ node.lpszName ++ [chr ' '] ++
      node.pAttribute.flatMap (attributeString t)).dropLast =
        indentation nFormat ++ chr '<' :: (node.lpszName ++ attributesText node.pAttribute) := by
    rw [List.append_assoc, List.singleton_append, htext, ← List.append_assoc, List.dropLast_concat]
    simp
  rw [node.createXMLStringR_eq, startTag, endTag, childFormat, elementRest]
  simp only [hname.ne_nil, hdeclaration, htag, if_false, Bool.false_eq_true, ne_eq, not_false_eq_true,
    and_self, if_true]
  cases hcontents : node.contents.isEmpty with
  | true =>
    rw [List.isEmpty_iff] at hcontents
    simp [hcontents, contentsString]
  | false => simp

theorem indentation_spaces (nFormat : Option Nat) : ∀ b ∈ indentation nFormat, isSPACECHAR b := by
  cases nFormat with
  | none => simp [indentation]
  | some n =>
    intro b hb
    rw [List.eq_of_mem_replicate hb]
    decide

theorem newline_spaces (nFormat : Option Nat) : ∀ b ∈ newline nFormat, isSPACECHAR b := by
  cases nFormat with
  | none => simp [newline]
  | some n =>
    intro b hb
    rw [List.mem_singleton.mp hb]
    decide

/-- Contents with the end tag of their element are read as its contents,
whatever stands in front of them. -/
def ParsesContents (t : ByteTable) (cs : List XMLContent) : Prop :=
  ∀ (p : Pending t), p.value = [] ∨ ¬beginsWithText cs → ∀ (d : XMLNode), IsName d.lpszName →
    ∀ (hasParent : Bool) (x : XML), x.cbEndTag = 0 → ∀ (f g : Option Nat) (s u : List Byte),
      u = p.text ++ (contentsString t f g cs ++
        (indentation f ++ chr '<' :: chr '/' :: (d.lpszName ++ chr '>' :: s))) →
      Parses t ⟨d, hasParent, .eOutsideTag, { x with lpXML := u, lpszText := some u }⟩
        ⟨true, d.addAll (trimmedText p.value ++ trimmedContents cs),
          { x with lpXML := s, lpszText := some s }⟩

theorem parses_element {node : XMLNode} (h : node.WellFormed t)
    (hcontents : ParsesContents t node.contents) (hx : x.cbEndTag = 0) (nFormat : Option Nat)
    (s : List Byte) :
    Parses t ⟨⟨node.lpszName, false, [], []⟩, true, .eAttribName,
      { x with lpXML := attributesText node.pAttribute ++ elementRest t nFormat node s }⟩
      ⟨true, node.trimmed,
        { x with lpXML := newline nFormat ++ s, lpszText := some (newline nFormat ++ s) }⟩ := by
  obtain ⟨hname, hdeclaration, hattributes, -⟩ := node.wellFormed_iff.mp h
  refine parses_attributes hattributes (.inr (closesTag_elementRest nFormat node s)) ?_
  rw [elementRest, node.trimmed_eq]
  cases hempty : node.contents.isEmpty with
  | true =>
    rw [List.isEmpty_iff] at hempty
    refine .ret ?_
    simp [parseToken, getNextToken_shortHand, attribName, hempty, trimmedContents,
      XMLNode.addAttributes, hdeclaration]
  | false =>
    have hrest := hcontents (.spaces t (newline nFormat) (newline_spaces nFormat)) (.inl rfl)
      (.addAttributes ⟨node.lpszName, false, [], []⟩ node.pAttribute) hname.toIsName true x hx
      nFormat (nFormat.map (· + 1)) (newline nFormat ++ s) _ rfl
    simp only [XMLNode.addAttributes, XMLNode.addAll, Pending.value_spaces, Pending.text_spaces,
      trimmedText_nil, List.nil_append] at hrest
    rw [hdeclaration]
    refine .goOn ?_ hrest
    simp [parseToken, getNextToken_close, attribName, XMLNode.addAttributes]

theorem eq_nil_of_lengthXMLString {value : List Byte} (h : Encoded t value)
    (hlen : lengthXMLString t value = 0) : value = [] := by
  cases value with
  | nil => rfl
  | cons b value =>
    have hlength := lengthXMLStringFrom_eq h
    rw [← lengthXMLString, hlen, List.flatMap_cons, List.length_append] at hlength
    have hpos := List.length_pos_of_ne_nil (escape_ne_nil b)
    omega

theorem parsesContents {cs : List XMLContent} (h : contentsWellFormed t cs) :
    ParsesContents t cs := by
  induction cs using contents_induction with
  | nil =>
    rintro p - d hname hasParent x hx f g s u rfl
    have hend := @parses_end t d hasParent x (p.followedBy (indentation f) (indentation_spaces f))
      hname s
    simpa [contentsString, trimmedContents] using hend
  | text value cs ih =>
    rintro p hp d hname hasParent x hx f g s u rfl
    obtain ⟨hvalue, hbegin, hcs⟩ := h
    replace hp : p.value = [] := hp.resolve_right (by simp [beginsWithText])
    by_cases hlen : lengthXMLString t value = 0
    · obtain rfl := eq_nil_of_lengthXMLString hvalue hlen
      have hrest := ih hcs p (.inl hp) d hname hasParent x hx f g s _ rfl
      simpa [contentsString, trimmedContents, textString, hlen] using hrest
    · have hbefore : ∀ b ∈ p.text ++ indentation (f.map (· + 1)), isSPACECHAR b := by
        intro b hb
        simp only [Pending.text, hp, List.flatMap_nil, List.append_nil, List.mem_append] at hb
        obtain (hb | hb) | hb := hb
        · exact p.before_spaces b hb
        · exact p.after_spaces b hb
        · exact indentation_spaces _ b hb
      have hrest := ih hcs
        ⟨p.text ++ indentation (f.map (· + 1)), value, newline f, hbefore, hvalue, newline_spaces f⟩
        (.inr hbegin) d hname hasParent x hx f g s _ rfl
      simpa [contentsString, trimmedContents, textString, hlen, Pending.text, hp,
        toXMLString_eq hvalue] using hrest
  | clear openTag value closeTag cs ih =>
    rintro p - d hname hasParent x hx f g s u rfl
    obtain ⟨hclear, hcs⟩ := h
    obtain ⟨⟨tail, rfl⟩, -⟩ := clearTag_ne_nil hclear.tag hclear.not_docType
    have hrest := ih hcs (.spaces t (newline f) (newline_spaces f)) (.inl rfl)
      ((d.addAll (trimmedText p.value)).add (.clear (chr '<' :: tail) value closeTag)) hname
      hasParent x hx f g s _ rfl
    have hparse := parses_clear
      (p.followedBy (indentation (f.map (· + 1))) (indentation_spaces _)) hclear hrest
    simpa [contentsString, trimmedContents, clearString, XMLNode.addAll, XMLNode.add] using hparse
  | child node cs ihnode ih =>
    rintro p - d hname hasParent x hx f g s u rfl
    obtain ⟨hnode, hcs⟩ := h
    obtain ⟨hnodeName, -, -, hcontents⟩ := node.wellFormed_iff.mp hnode
    have hrest := ih hcs (.spaces t (newline g) (newline_spaces g)) (.inl rfl)
      ((d.addAll (trimmedText p.value)).add (.child node.trimmed)) hname hasParent x hx f g s _ rfl
    simp only [Pending.text_spaces, XMLNode.lpszName_add, XMLNode.lpszName_addAll] at hrest
    have hchild := parses_element (x := { x with lpszText := none }) hnode (ihnode hcontents) hx g
      (contentsString t f g cs ++
        (indentation f ++ chr '<' :: chr '/' :: (d.lpszName ++ chr '>' :: s)))
    have hparse := parses_child (p.followedBy (indentation g) (indentation_spaces g)) hnodeName
      (endsName_attributes (closesTag_elementRest g node _)) hchild hx hrest
    simp only [contentsString, trimmedContents, List.append_assoc]
    rw [createXMLStringR_append hnode]
    simpa using hparse

end Trees

-- ---------------------------------------------------------------------------
-- Documents
-- ---------------------------------------------------------------------------

section Documents

variable {t : ByteTable} {d : XMLNode} {hasParent : Bool} {x : XML} {node : XMLNode}

theorem parses_root {w : List Byte} (hw : ∀ b ∈ w, isSPACECHAR b) (h : node.WellFormed t)
    (hx : x.cbEndTag = 0) (hend : d.isDeclaration = true ∨ hasParent = false) (nFormat : Option Nat)
    {u : List Byte} (hu : u = w ++ node.createXMLStringR t nFormat) :
    Parses t ⟨d, hasParent, .eOutsideTag, { x with lpXML := u, lpszText := some u }⟩
      ⟨false, d.add (.child node.trimmed),
        { x with lpXML := [], lpszText := some (newline nFormat) }⟩ := by
  obtain ⟨hname, -, -, hcontents⟩ := node.wellFormed_iff.mp h
  have hshape := createXMLStringR_append h nFormat []
  rw [List.append_nil] at hshape
  have hchild := parses_element (x := { x with lpszText := none }) h (parsesContents hcontents) hx
    nFormat []
  rw [List.append_nil] at hchild
  have htoken : getNextToken t x.docTypeClose (newline nFormat) = ⟨.eTokenError, [], 0, []⟩ := by
    have hspaces := @getNextToken_spaces t x.docTypeClose _ (newline_spaces nFormat) []
    rwa [List.append_nil] at hspaces
  have heof : Parses t
      ⟨(d.addAll (trimmedText [])).add (.child node.trimmed), hasParent, .eOutsideTag,
        { x with lpXML := newline nFormat, lpszText := some (newline nFormat) }⟩
      ⟨false, d.add (.child node.trimmed),
        { x with lpXML := [], lpszText := some (newline nFormat) }⟩ := by
    refine .ret ?_
    obtain hend | hend := hend
    · simp [parseToken, htoken, hend, XMLNode.add]
    · simp [parseToken, htoken, hend, XMLNode.add]
  have hparse := parses_child
    ((Pending.spaces t w hw).followedBy (indentation nFormat) (indentation_spaces _))
    hname (endsName_attributes (closesTag_elementRest nFormat node [])) hchild hx heof
  rw [hu, hshape]
  simpa using hparse

theorem parseXMLElement_eq {f : Frame} {r : Returned} (h : Parses t f r) :
    parseXMLElement t (f.xml.lpXML.length + 1) f = some r :=
  (Descent.Runs.run_of_size (decreases t) h (Nat.lt_succ_self _)).1

def IsTagOf (tag : List Byte) (node : XMLNode) : Prop := tag = [] ∨ tcsicmp node.lpszName tag

theorem lpszName_trimmed (node : XMLNode) : node.trimmed.lpszName = node.lpszName := by
  cases node
  rfl

theorem findFirstTag_of_isTagOf {tag : List Byte} (hname : node.lpszName ≠ []) (htag : IsTagOf tag node) :
    findFirstTag tag node .eXMLErrorNone = (some node, .eXMLErrorNone) := by
  obtain htag | htag := htag
  · simp [findFirstTag, htag]
  · simp [findFirstTag, htag, hname]

theorem skipHead_child (node : XMLNode) : skipHead ⟨[], false, [], [.child node]⟩ = node := rfl

/-- The tree is read back without the spaces around its texts. -/
theorem parseString_createXMLString (t : ByteTable) (docTypeClose : DocTypeClose) (tag : List Byte)
    (nFormat : Int) (node : XMLNode) (h : node.WellFormed t) (htag : IsTagOf tag node) :
    parseString t docTypeClose (node.createXMLString t nFormat) tag =
      some ⟨some node.trimmed, .eXMLErrorNone, docTypeClose⟩ := by
  have hname := (node.wellFormed_iff.mp h).1
  have hparse := @parses_root t ⟨[], false, [], []⟩ false (documentFrame docTypeClose []).xml node []
    (by simp) h rfl (.inr rfl) (if nFormat = 0 then none else some 0) _ rfl
  have hfind : findFirstTag tag node.trimmed .eXMLErrorNone = _ :=
    findFirstTag_of_isTagOf (by rw [lpszName_trimmed]; exact hname.ne_nil)
      (by rwa [IsTagOf, lpszName_trimmed])
  have hrun := parseXMLElement_eq hparse
  rw [List.nil_append] at hrun
  rw [parseString, XMLNode.createXMLString, documentFrame]
  simp only [documentFrame] at hrun
  simp [hrun, XMLNode.add, skipHead_child, hfind]

theorem parseString_createXMLString_escaped :
    parseString .utf8 .bracket (XMLNode.createXMLString .utf8 0
        ⟨str "a", false, [⟨str "b", some (str "<")⟩], [.text (str " c & ")]⟩) (str "A") =
      some ⟨some ⟨str "a", false, [⟨str "b", some (str "<")⟩], [.text (str "c &")]⟩,
        .eXMLErrorNone, .bracket⟩ := by
  refine parseString_createXMLString .utf8 .bracket (str "A") 0 _ ⟨?_, rfl, ?_, rfl, by decide, trivial⟩
    (.inr (by decide))
  · exact ⟨⟨by decide, by decide⟩, by decide, by decide⟩
  · intro a ha
    rw [List.mem_singleton.mp ha]
    exact .valued ⟨by decide, by decide⟩ rfl

end Documents

end LARCmaCS.Xml
