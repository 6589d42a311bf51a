import Mathlib.Data.List.Basic
import Mathlib.Data.List.TakeWhile
import Mathlib.Tactic.Common

/-!
# Character data in XML

The string functions of `xmlParser.cpp`, in the build without wide characters.
A C string is the list of its bytes without the terminator, and a pointer into
it is the rest of the list. The end of the string ends its last character, also
one that should have more bytes: behind it the code goes on, so that such a
string is not `wholeCharacters`. `toXMLString` and `fromXMLString` are inverse to
each other on text in UTF-8 (`fromXMLString_escape`).
-/

namespace LARCmaCS.Xml

abbrev Byte := BitVec 8

inductive XMLError where
  | eXMLErrorNone
  | eXMLErrorMissingEndTag
  | eXMLErrorEmpty
  | eXMLErrorFirstNotStartTag
  | eXMLErrorMissingTagName
  | eXMLErrorMissingEndTagName
  | eXMLErrorNoMatchingQuote
  | eXMLErrorUnmatchedEndTag
  | eXMLErrorUnmatchedEndClearTag
  | eXMLErrorUnexpectedToken
  | eXMLErrorInvalidTag
  | eXMLErrorNoElements
  | eXMLErrorFileNotFound
  | eXMLErrorFirstTagNotFound
  | eXMLErrorUnknownCharacterEntity
  | eXMLErrorCharConversionError
  | eXMLErrorCannotOpenWriteFile
  | eXMLErrorCannotWriteFile
  | eXMLErrorBase64DataSizeIsNotMultipleOf4
  | eXMLErrorBase64DecodeIllegalCharacter
  | eXMLErrorBase64DecodeTruncatedData
  | eXMLErrorBase64DecodeBufferTooSmall
  deriving DecidableEq

def chr (c : Char) : Byte := BitVec.ofNat 8 c.toNat

def str (s : String) : List Byte := s.toList.map chr

def cString (buf : List Byte) : List Byte := buf.takeWhile (· ≠ 0#8)

theorem cString_eq {s : List Byte} (h : 0#8 ∉ s) : cString s = s := by
  rw [cString, List.takeWhile_eq_self_iff]
  intro b hb
  rw [decide_eq_true_eq]
  rintro rfl
  exact h hb

-- ---------------------------------------------------------------------------
-- Characters
-- ---------------------------------------------------------------------------

inductive ByteTable where
  | utf8
  | ascii
  deriving DecidableEq

/-- The length of a character by its first byte. -/
def ByteTable.len : ByteTable → Byte → Nat
  | .utf8, b =>
    if b = 0#8 then 0 else if b < 0xc2#8 then 1 else if b < 0xe0#8 then 2
    else if b < 0xf0#8 then 3 else if b < 0xf5#8 then 4 else 1
  | .ascii, b => if b = 0#8 then 0 else 1

/-- No byte begins a character that the end of the string cuts off. -/
def wholeCharacters (t : ByteTable) : List Byte → Bool
  | [] => true
  | b :: s => t.len b ≤ s.length + 1 && wholeCharacters t s

def isSPACECHAR (ch : Byte) : Bool := ch = 10#8 || ch = chr ' ' || ch = 9#8 || ch = 13#8

def toLower (ch : Byte) : Byte := if 65#8 ≤ ch && ch ≤ 90#8 then ch + 32#8 else ch

/-- `_tcsicmp(a, b) == 0` -/
def tcsicmp (a b : List Byte) : Bool := a.map toLower = b.map toLower

/-- `_tcsnicmp(a, b, a.length) == 0` -/
def tcsnicmp (a b : List Byte) : Bool := tcsicmp a (b.take a.length)

/-- For a length of 0 everything up to the terminator is copied. -/
def stringDup (data : List Byte) (cbData : Nat) : List Byte :=
  if cbData = 0 then data else data.take cbData

-- ---------------------------------------------------------------------------
-- Entities
-- ---------------------------------------------------------------------------

structure XMLCharacterEntity where
  s : List Byte
  c : Byte

def XMLCharacterEntity.l (e : XMLCharacterEntity) : Nat := e.s.length

def XMLEntities : List XMLCharacterEntity := [
  ⟨str "&amp;", chr '&'⟩,
  ⟨str "&lt;", chr '<'⟩,
  ⟨str "&gt;", chr '>'⟩,
  ⟨str "&quot;", 34#8⟩,
  ⟨str "&apos;", 39#8⟩]

def entityOf (ch : Byte) : Option XMLCharacterEntity := XMLEntities.find? fun e => ch = e.c

/-- `toXMLString` when `n` bytes of a character are still to be copied. -/
def toXMLStringFrom (t : ByteTable) : (n : Nat) → (source : List Byte) → List Byte
  | _, [] => []
  | n + 1, ch :: source => ch :: toXMLStringFrom t n source
  | 0, ch :: source =>
    if ch = 0#8 then [] else
    match entityOf ch with
    | some entity => entity.s ++ toXMLStringFrom t 0 source
    | none => ch :: toXMLStringFrom t (t.len ch - 1) source

def toXMLString (t : ByteTable) (source : List Byte) : List Byte := toXMLStringFrom t 0 source

def lengthXMLStringFrom (t : ByteTable) : (n : Nat) → (source : List Byte) → Nat
  | _, [] => 0
  | n + 1, _ :: source => lengthXMLStringFrom t n source
  | 0, ch :: source =>
    if ch = 0#8 then 0 else
    match entityOf ch with
    | some entity => entity.l + lengthXMLStringFrom t 0 source
    | none => t.len ch + lengthXMLStringFrom t (t.len ch - 1) source

def lengthXMLString (t : ByteTable) (source : List Byte) : Nat := lengthXMLStringFrom t 0 source

def digit (hex : Bool) (ch : Byte) : Option Byte :=
  if 48#8 ≤ ch && ch ≤ 57#8 then some (ch - 48#8)
  else if hex && 65#8 ≤ ch && ch ≤ 70#8 then some (ch - 65#8 + 10#8)
  else if hex && 97#8 ≤ ch && ch ≤ 102#8 then some (ch - 97#8 + 10#8)
  else none

/-- The digits up to `;`, of which the last eight bits of the number are kept. -/
def readDigits (hex : Bool) : (j : Byte) → (s : List Byte) → (lo : Int) →
    Option (Byte × List Byte × Int)
  | _, [], _ => none
  | j, ch :: s, lo =>
    if ch = 0#8 then none
    else if ch = chr ';' then some (j, s, lo - 1)
    else if 0 < lo then do
      let d ← digit hex ch
      readDigits hex (j * (if hex then 16#8 else 10#8) + d) s (lo - 1)
    else none

def readEntity (s : List Byte) (lo : Int) : Option (Byte × List Byte × Int) :=
  if 2 < lo && s[1]? = some (chr '#') then
    match s.drop 2 with
    | [] => none
    | x :: rest =>
      if x = chr 'X' || x = chr 'x' then readDigits true 0#8 rest (lo - 3)
      else readDigits false 0#8 (x :: rest) (lo - 2)
  else
    (XMLEntities.find? fun e => e.l ≤ lo && tcsnicmp e.s s).map fun e =>
      (e.c, s.drop e.l, lo - e.l)

/-- Both passes of `fromXMLString`, when `n` bytes of a character are still to
be copied. Each round of `fuel` goes on by a byte at least. -/
def fromXMLStringFrom (t : ByteTable) : (fuel : Nat) → (n : Nat) → (s : List Byte) → (lo : Int) →
    Option (List Byte)
  | 0, _, _, _ => some []
  | _ + 1, _, [], _ => some []
  | fuel + 1, n + 1, ch :: s, lo => (ch :: ·) <$> fromXMLStringFrom t fuel n s (lo - 1)
  | fuel + 1, 0, ch :: s, lo =>
    if lo ≤ 0 || ch = 0#8 then some []
    else if ch = chr '&' then do
      let (c, rest, lo) ← readEntity (ch :: s) lo
      (c :: ·) <$> fromXMLStringFrom t fuel 0 rest lo
    else (ch :: ·) <$> fromXMLStringFrom t fuel (t.len ch - 1) s (lo - 1)

/-- `none` for the error `eXMLErrorUnknownCharacterEntity`. A character of the
number 0 ends the string. -/
def fromXMLString (t : ByteTable) (s : List Byte) (lo : Nat) : Option (List Byte) :=
  (fromXMLStringFrom t s.length 0 s lo).map cString

-- ---------------------------------------------------------------------------
-- Encoded text
-- ---------------------------------------------------------------------------

/-- Every character has as many bytes as its first one announces, the others
from 0x80 on; `n` of them are still due. -/
def encodedFrom (t : ByteTable) : (n : Nat) → List Byte → Bool
  | 0, [] => true
  | _ + 1, [] => false
  | n + 1, b :: s => 0x80#8 ≤ b && encodedFrom t n s
  | 0, b :: s => b ≠ 0#8 && encodedFrom t (t.len b - 1) s

abbrev Encoded (t : ByteTable) (s : List Byte) : Prop := encodedFrom t 0 s = true

@[simp] theorem encodedFrom_succ {t : ByteTable} {n : Nat} {b : Byte} {s : List Byte} :
    encodedFrom t (n + 1) (b :: s) ↔ 0x80#8 ≤ b ∧ encodedFrom t n s := by
  simp [encodedFrom]

@[simp] theorem encoded_cons {t : ByteTable} {b : Byte} {s : List Byte} :
    Encoded t (b :: s) ↔ b ≠ 0#8 ∧ encodedFrom t (t.len b - 1) s := by
  simp [Encoded, encodedFrom]

theorem ByteTable.len_pos (t : ByteTable) : ∀ {b : Byte}, b ≠ 0#8 → 1 ≤ t.len b := by
  cases t <;> decide

theorem ByteTable.len_of_lt (t : ByteTable) :
    ∀ {b : Byte}, b ≠ 0#8 → b < 0x80#8 → t.len b = 1 := by
  cases t <;> decide

def escape (b : Byte) : List Byte := ((entityOf b).map XMLCharacterEntity.s).getD [b]

theorem escape_of_le : ∀ {b : Byte}, 0x80#8 ≤ b → escape b = [b] := by decide

theorem escape_ne_nil : ∀ b : Byte, escape b ≠ [] := by decide

theorem escape_of_some {b : Byte} {e : XMLCharacterEntity} (h : entityOf b = some e) :
    escape b = e.s := by
  simp [escape, h]

theorem escape_of_none {b : Byte} (h : entityOf b = none) : escape b = [b] := by
  simp [escape, h]

theorem mem_of_entityOf {b : Byte} {e : XMLCharacterEntity} (h : entityOf b = some e) :
    e ∈ XMLEntities ∧ b = e.c :=
  ⟨List.mem_of_find?_eq_some h, by simpa using List.find?_some h⟩

theorem len_of_entity {t : ByteTable} {b : Byte} {e : XMLCharacterEntity}
    (h : entityOf b = some e) : t.len b = 1 := by
  obtain ⟨he, rfl⟩ := mem_of_entityOf h
  simp only [XMLEntities, List.mem_cons, List.not_mem_nil, or_false] at he
  obtain rfl | rfl | rfl | rfl | rfl := he <;> cases t <;> decide

theorem toXMLStringFrom_eq {t : ByteTable} {n : Nat} {s : List Byte} (h : encodedFrom t n s) :
    toXMLStringFrom t n s = s.flatMap escape := by
  induction s generalizing n with
  | nil => simp [toXMLStringFrom]
  | cons b s ih =>
    cases n with
    | zero =>
      obtain ⟨h0, hs⟩ := encoded_cons.mp h
      rw [List.flatMap_cons, toXMLStringFrom, if_neg h0]
      cases he : entityOf b with
      | some e =>
        rw [len_of_entity he] at hs
        simp [escape_of_some he, ih hs]
      | none => simp [escape_of_none he, ih hs]
    | succ n =>
      obtain ⟨hb, hs⟩ := encodedFrom_succ.mp h
      simp [toXMLStringFrom, escape_of_le hb, ih hs]

theorem lengthXMLStringFrom_eq {t : ByteTable} {n : Nat} {s : List Byte} (h : encodedFrom t n s) :
    lengthXMLStringFrom t n s + n = (s.flatMap escape).length := by
  induction s generalizing n with
  | nil =>
    cases n with
    | zero => rfl
    | succ n => simp [encodedFrom] at h
  | cons b s ih =>
    cases n with
    | zero =>
      obtain ⟨h0, hs⟩ := encoded_cons.mp h
      rw [List.flatMap_cons, lengthXMLStringFrom, if_neg h0]
      cases he : entityOf b with
      | some e =>
        rw [len_of_entity he] at hs
        simp [escape_of_some he, XMLCharacterEntity.l, ← ih hs]
      | none =>
        have hlen := t.len_pos h0
        simp only [escape_of_none he, List.length_append, ← ih hs, List.length_singleton]
        omega
    | succ n =>
      obtain ⟨hb, hs⟩ := encodedFrom_succ.mp h
      simp only [lengthXMLStringFrom, List.flatMap_cons, escape_of_le hb, List.length_append,
        ← ih hs, List.length_singleton]
      omega

theorem not_special_of_entityOf : ∀ {b : Byte}, entityOf b = none →
    b ≠ 34#8 ∧ b ≠ 39#8 ∧ b ≠ chr '<' ∧ b ≠ chr '>' ∧ b ≠ chr '&' := by
  intro b h
  refine ⟨?_, ?_, ?_, ?_, ?_⟩ <;> rintro rfl <;> exact absurd h (by decide)

/-- No entity begins with another one, up to the case of its letters. -/
theorem readEntity_entity {e : XMLCharacterEntity} (he : e ∈ XMLEntities) (r : List Byte)
    (lo : Int) (hlo : e.l ≤ lo) : readEntity (e.s ++ r) lo = some (e.c, r, lo - e.l) := by
  simp only [XMLEntities, List.mem_cons, List.not_mem_nil, or_false] at he
  obtain rfl | rfl | rfl | rfl | rfl := he
  all_goals
    simp [XMLCharacterEntity.l, str, chr] at hlo
    simp [readEntity, XMLEntities, tcsnicmp, tcsicmp, str, chr, toLower, XMLCharacterEntity.l, hlo]
    try omega

theorem entity_amp {e : XMLCharacterEntity} (he : e ∈ XMLEntities) :
    ∃ s, e.s = chr '&' :: s := by
  simp only [XMLEntities, List.mem_cons, List.not_mem_nil, or_false] at he
  obtain rfl | rfl | rfl | rfl | rfl := he <;> exact ⟨_, rfl⟩

theorem fromXMLStringFrom_amp (t : ByteTable) (fuel : Nat) {s : List Byte} {lo : Int} (hlo : 0 < lo) :
    fromXMLStringFrom t (fuel + 1) 0 (chr '&' :: s) lo =
      (readEntity (chr '&' :: s) lo).bind fun (c, rest, lo) =>
        (c :: ·) <$> fromXMLStringFrom t fuel 0 rest lo := by
  have h : ¬(lo ≤ 0) := by omega
  have hamp : chr '&' ≠ 0#8 := by decide
  simp [fromXMLStringFrom, h, hamp]

theorem fromXMLStringFrom_escape {t : ByteTable} {n : Nat} {s : List Byte}
    (h : encodedFrom t n s) (r : List Byte) {fuel : Nat} {lo : Int}
    (hfuel : (s.flatMap escape).length ≤ fuel) (hlo : lo = (s.flatMap escape).length) :
    fromXMLStringFrom t fuel n (s.flatMap escape ++ r) lo = some s := by
  induction s generalizing n fuel lo with
  | nil =>
    cases n with
    | zero =>
      subst hlo
      cases fuel <;> cases r <;> simp [fromXMLStringFrom]
    | succ n => simp [encodedFrom] at h
  | cons b s ih =>
    rw [List.flatMap_cons, List.length_append] at hfuel hlo
    have hpos := List.length_pos_of_ne_nil (escape_ne_nil b)
    obtain ⟨fuel, rfl⟩ := Nat.exists_eq_add_of_le' (show 1 ≤ fuel by omega)
    have hrest {n} (hs : encodedFrom t n s) (lo : Int) (hlo : lo = (s.flatMap escape).length) :=
      ih hs (show (s.flatMap escape).length ≤ fuel by omega) hlo
    rw [List.flatMap_cons, List.append_assoc]
    generalize s.flatMap escape = w at hrest hlo
    cases n with
    | zero =>
      obtain ⟨h0, hs⟩ := encoded_cons.mp h
      cases he : entityOf b with
      | some e =>
        obtain ⟨hmem, rfl⟩ := mem_of_entityOf he
        rw [len_of_entity he] at hs
        rw [escape_of_some he] at hlo ⊢
        have hl : e.l = e.s.length := rfl
        have hread := readEntity_entity hmem (w ++ r) lo (by omega)
        obtain ⟨tail, htail⟩ := entity_amp hmem
        rw [htail, List.cons_append] at hread ⊢
        rw [escape_of_some he] at hpos
        rw [fromXMLStringFrom_amp t fuel (by omega), hread]
        simp [hrest hs (lo - e.l) (by omega)]
      | none =>
        rw [escape_of_none he] at hlo ⊢
        rw [List.length_singleton] at hlo
        have hpos : ¬(lo ≤ 0) := by omega
        obtain ⟨-, -, -, -, hamp⟩ := not_special_of_entityOf he
        simp [fromXMLStringFrom, h0, hpos, hamp, hrest hs (lo - 1) (by omega)]
    | succ n =>
      obtain ⟨hb, hs⟩ := encodedFrom_succ.mp h
      rw [escape_of_le hb] at hlo ⊢
      rw [List.length_singleton] at hlo
      simp [fromXMLStringFrom, hrest hs (lo - 1) (by omega)]

theorem nul_notMem_of_encoded {t : ByteTable} {n : Nat} {s : List Byte} (h : encodedFrom t n s) :
    0#8 ∉ s := by
  induction s generalizing n with
  | nil => simp
  | cons b s ih =>
    rw [List.mem_cons, not_or]
    cases n with
    | zero => exact ⟨(encoded_cons.mp h).1.symm, ih (encoded_cons.mp h).2⟩
    | succ n =>
      obtain ⟨hb, hs⟩ := encodedFrom_succ.mp h
      refine ⟨?_, ih hs⟩
      rintro rfl
      exact absurd hb (by decide)

theorem fromXMLString_escape {t : ByteTable} {s : List Byte} (h : Encoded t s) (r : List Byte) :
    fromXMLString t (s.flatMap escape ++ r) (s.flatMap escape).length = some s := by
  rw [fromXMLString, fromXMLStringFrom_escape h r (by simp) rfl, Option.map_some,
    cString_eq (nul_notMem_of_encoded h)]

end LARCmaCS.Xml
