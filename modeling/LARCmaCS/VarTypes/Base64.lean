import LARCmaCS.Xml.Text
import Mathlib.Tactic.IntervalCases

/-!
# Blobs as text

`XMLParserBase64Tool` of `xmlParser.cpp`, through which `VarBlob` stores a
colour table in a settings file. Strings are lists of bytes. What `encode`
writes fills the string it has allocated (`encode_eq`), and `decode` reads it
back (`decode_encode`). On no string does `decode` leave its buffer
(`decode_safe`).
-/

namespace LARCmaCS.Base64

open Xml (Byte XMLError)

-- ---------------------------------------------------------------------------
-- Tables
-- ---------------------------------------------------------------------------

def base64Fillchar : Byte := 61

def newline : Byte := 10

def base64EncodeTable : List Byte :=
  "ABCDEFGHIJKLMNOPQRSTUVWXYZabcdefghijklmnopqrstuvwxyz0123456789+/".toList.map fun c =>
    BitVec.ofNat 8 c.toNat

/-- 96: `=`, 97: a space character, 98: an illegal one, 99: the end of the string. -/
def base64DecodeTable : List Byte := [
  99,98,98,98,98,98,98,98,98,97,  97,98,98,97,98,98,98,98,98,98,  98,98,98,98,98,98,98,98,98,98,
  98,98,97,98,98,98,98,98,98,98,  98,98,98,62,98,98,98,63,52,53,  54,55,56,57,58,59,60,61,98,98,
  98,96,98,98,98, 0, 1, 2, 3, 4,   5, 6, 7, 8, 9,10,11,12,13,14,  15,16,17,18,19,20,21,22,23,24,
  25,98,98,98,98,98,98,26,27,28,  29,30,31,32,33,34,35,36,37,38,  39,40,41,42,43,44,45,46,47,48,
  49,50,51,98,98,98,98,98,98,98,  98,98,98,98,98,98,98,98,98,98,  98,98,98,98,98,98,98,98,98,98,
  98,98,98,98,98,98,98,98,98,98,  98,98,98,98,98,98,98,98,98,98,  98,98,98,98,98,98,98,98,98,98,
  98,98,98,98,98,98,98,98,98,98,  98,98,98,98,98,98,98,98,98,98,  98,98,98,98,98,98,98,98,98,98,
  98,98,98,98,98,98,98,98,98,98,  98,98,98,98,98,98,98,98,98,98,  98,98,98,98,98,98,98,98,98,98,
  98,98,98,98,98,98,98,98,98,98,  98,98,98,98,98,98]

-- ---------------------------------------------------------------------------
-- encode
-- ---------------------------------------------------------------------------

def encodeLength (inlen : Int) (formatted : Bool) : Int :=
  let i := BitVec.ofInt 32 ((inlen - 1).tdiv 3 * 4 + 4 + 1)
  (if formatted then i + BitVec.ofInt 32 (inlen.tdiv 54) else i).toInt

/-- `resize(n, 0)` of a string. -/
def resize (s : List Byte) (n : Nat) : List Byte := s.take n ++ List.replicate (n - s.length) 0

structure Cursor where
  out : List Byte
  curr : Nat

/-- `*(curr++) = ch`, without a result behind the end of the string. -/
def Cursor.put (c : Cursor) (ch : Byte) : Option Cursor :=
  if c.curr < c.out.length then some ⟨c.out.set c.curr ch, c.curr + 1⟩ else none

/-- `*(curr++) = base64EncodeTable[j]` -/
def Cursor.putCode (c : Cursor) (j : BitVec 32) : Option Cursor := do
  let ch ← base64EncodeTable[j.toNat]?
  c.put ch

/-- `inbuf` is what is left of the data. -/
structure EncodeState where
  inbuf : List Byte
  k : Int
  cursor : Cursor

def word (b0 b1 b2 : Byte) : BitVec 32 :=
  (b0.setWidth 32 <<< 16) ||| (b1.setWidth 32 <<< 8) ||| b2.setWidth 32

def halfWord (b0 b1 : Byte) : BitVec 32 := (b0.setWidth 32 <<< 8) ||| b1.setWidth 32

def encodeRound (formatted : Bool) (s : EncodeState) (_i : Nat) : Option EncodeState :=
  match s.inbuf with
  | b0 :: b1 :: b2 :: inbuf => do
    let j := word b0 b1 b2
    let c ← s.cursor.putCode (j >>> 18)
    let c ← c.putCode ((j >>> 12) &&& 0x3f)
    let c ← c.putCode ((j >>> 6) &&& 0x3f)
    let c ← c.putCode (j &&& 0x3f)
    if formatted then
      if s.k = 0 then do
        let c ← c.put newline
        some ⟨inbuf, 18 - 1, c⟩
      else some ⟨inbuf, s.k - 1, c⟩
    else some ⟨inbuf, s.k, c⟩
  | _ => none

def encodeRest (eLen : Nat) (inbuf : List Byte) (c : Cursor) : Option Cursor :=
  if eLen = 1 then do
    let b0 ← inbuf[0]?
    let c ← c.putCode (b0.setWidth 32 >>> 2)
    let c ← c.putCode ((b0.setWidth 32 <<< 4) &&& 0x3f)
    let c ← c.put base64Fillchar
    c.put base64Fillchar
  else if eLen = 2 then do
    let b0 ← inbuf[0]?
    let b1 ← inbuf[1]?
    let j := halfWord b0 b1
    let c ← c.putCode (j >>> 10)
    let c ← c.putCode ((j >>> 4) &&& 0x3f)
    let c ← c.putCode ((j <<< 2) &&& 0x3f)
    c.put base64Fillchar
  else some c

/-- The string afterwards. To a negative length it cannot be resized. -/
def encode (inbuf outString : List Byte) (formatted : Bool) : Option (List Byte) := do
  let i := encodeLength inbuf.length formatted
  if i < 0 then none
  else
    let eLen := inbuf.length / 3
    let s ← (List.range eLen).foldlM (encodeRound formatted)
      ⟨inbuf, 17, ⟨resize outString i.toNat, 0⟩⟩
    let c ← encodeRest (inbuf.length - eLen * 3) s.inbuf s.cursor
    let c ← c.put 0
    some c.out

-- ---------------------------------------------------------------------------
-- decode
-- ---------------------------------------------------------------------------

/-- What is returned, `*xe` and the buffer. -/
structure Decoded where
  ok : Bool
  xe : XMLError
  buf : List Byte
  deriving DecidableEq

/-- The code of the next character that is no space, and the string behind it;
no result behind the end of the string. -/
def readNextChar : List Byte → Option (Byte × List Byte)
  | [] => none
  | ch :: data =>
    match base64DecodeTable[ch.toNat]? with
    | some c => if c = 97 then readNextChar data else some (c, data)
    | none => none

def store (buf : List Byte) (p : Nat) (b : Byte) : Option (List Byte) :=
  if p < buf.length then some (buf.set p b) else none

/-- The loop, at most so many rounds. -/
def decodeFrom (len : Int) : (rounds : Nat) → (data : List Byte) → (p : Nat) → (buf : List Byte) →
    Option Decoded
  | 0, _, _, _ => none
  | rounds + 1, data, p, buf => do
    let (c, data) ← readNextChar data
    if c = 98 then some ⟨false, .eXMLErrorBase64DecodeIllegalCharacter, buf⟩
    else if c = 99 then some ⟨true, .eXMLErrorNone, buf⟩
    else if c = 96 then
      if p = len then some ⟨true, .eXMLErrorNone, buf⟩
      else some ⟨true, .eXMLErrorBase64DecodeTruncatedData, buf⟩
    else do
      let (d, data) ← readNextChar data
      if d = 98 then some ⟨false, .eXMLErrorBase64DecodeIllegalCharacter, buf⟩
      else if d = 99 ∨ d = 96 then some ⟨true, .eXMLErrorBase64DecodeTruncatedData, buf⟩
      else if p = len then some ⟨false, .eXMLErrorBase64DecodeBufferTooSmall, buf⟩
      else do
        let buf ← store buf p ((c <<< 2) ||| ((d >>> 4) &&& 0x3))
        let p := p + 1
        let (c, data) ← readNextChar data
        if c = 98 then some ⟨false, .eXMLErrorBase64DecodeIllegalCharacter, buf⟩
        else if c = 99 then some ⟨true, .eXMLErrorBase64DecodeTruncatedData, buf⟩
        else if p = len then
          if c = 96 then some ⟨true, .eXMLErrorNone, buf⟩
          else some ⟨false, .eXMLErrorBase64DecodeBufferTooSmall, buf⟩
        else if c = 96 then some ⟨true, .eXMLErrorBase64DecodeTruncatedData, buf⟩
        else do
          let buf ← store buf p (((d <<< 4) &&& 0xf0) ||| ((c >>> 2) &&& 0xf))
          let p := p + 1
          let (d, data) ← readNextChar data
          if d = 98 then some ⟨false, .eXMLErrorBase64DecodeIllegalCharacter, buf⟩
          else if d = 99 then some ⟨true, .eXMLErrorBase64DecodeTruncatedData, buf⟩
          else if p = len then
            if d = 96 then some ⟨true, .eXMLErrorNone, buf⟩
            else some ⟨false, .eXMLErrorBase64DecodeBufferTooSmall, buf⟩
          else if d = 96 then some ⟨true, .eXMLErrorBase64DecodeTruncatedData, buf⟩
          else do
            let buf ← store buf p (((c <<< 6) &&& 0xc0) ||| d)
            decodeFrom len rounds data (p + 1) buf

/-- `c_str()` ends the string with a zero. -/
def decode (inString : List Byte) (buf : List Byte) (len : Int) : Option Decoded :=
  decodeFrom len (inString.length + 1) (inString ++ [0]) 0 buf

-- ---------------------------------------------------------------------------
-- Codes
-- ---------------------------------------------------------------------------

-- The codes of up to three bytes; bytes that are missing count as zero.

def code0 (b0 : Byte) : Byte := b0 >>> 2
def code1 (b0 b1 : Byte) : Byte := ((b0 &&& 3) <<< 4) ||| (b1 >>> 4)
def code2 (b1 b2 : Byte) : Byte := ((b1 &&& 0xf) <<< 2) ||| (b2 >>> 6)
def code3 (b2 : Byte) : Byte := b2 &&& 0x3f

def letter (c : Byte) : Byte := base64EncodeTable.getD c.toNat 0

theorem and_lt (c : Byte) : (c &&& 0x3f).toNat < 64 := by
  rw [BitVec.toNat_and]
  exact Nat.lt_of_le_of_lt Nat.and_le_right (by decide)

theorem code0_lt (b0 : Byte) : (code0 b0).toNat < 64 := by
  rw [code0, BitVec.toNat_ushiftRight, Nat.shiftRight_eq_div_pow]
  omega

theorem code1_lt (b0 b1 : Byte) : (code1 b0 b1).toNat < 64 := by
  have hmask : code1 b0 b1 = code1 b0 b1 &&& 0x3f := by
    unfold code1
    ext i hi
    interval_cases i <;> simp
  rw [hmask]
  exact and_lt _

theorem code2_lt (b1 b2 : Byte) : (code2 b1 b2).toNat < 64 := by
  have hmask : code2 b1 b2 = code2 b1 b2 &&& 0x3f := by
    unfold code2
    ext i hi
    interval_cases i <;> simp
  rw [hmask]
  exact and_lt _

theorem code3_lt (b2 : Byte) : (code3 b2).toNat < 64 := and_lt b2

-- What `encode` looks up.

theorem word_code0 (b0 b1 b2 : Byte) : word b0 b1 b2 >>> 18 = (code0 b0).setWidth 32 := by
  unfold word code0
  ext i hi
  interval_cases i <;> simp

theorem word_code1 (b0 b1 b2 : Byte) :
    (word b0 b1 b2 >>> 12) &&& 0x3f = (code1 b0 b1).setWidth 32 := by
  unfold word code1
  ext i hi
  interval_cases i <;> simp

theorem word_code2 (b0 b1 b2 : Byte) :
    (word b0 b1 b2 >>> 6) &&& 0x3f = (code2 b1 b2).setWidth 32 := by
  unfold word code2
  ext i hi
  interval_cases i <;> simp

theorem word_code3 (b0 b1 b2 : Byte) : word b0 b1 b2 &&& 0x3f = (code3 b2).setWidth 32 := by
  unfold word code3
  ext i hi
  interval_cases i <;> simp

theorem one_code0 (b0 : Byte) : (b0.setWidth 32 : BitVec 32) >>> 2 = (code0 b0).setWidth 32 := by
  unfold code0
  ext i hi
  interval_cases i <;> simp

theorem one_code1 (b0 : Byte) :
    ((b0.setWidth 32 : BitVec 32) <<< 4) &&& 0x3f = (code1 b0 0).setWidth 32 := by
  unfold code1
  ext i hi
  interval_cases i <;> simp

theorem two_code0 (b0 b1 : Byte) : halfWord b0 b1 >>> 10 = (code0 b0).setWidth 32 := by
  unfold halfWord code0
  ext i hi
  interval_cases i <;> simp

theorem two_code1 (b0 b1 : Byte) :
    (halfWord b0 b1 >>> 4) &&& 0x3f = (code1 b0 b1).setWidth 32 := by
  unfold halfWord code1
  ext i hi
  interval_cases i <;> simp

theorem two_code2 (b0 b1 : Byte) :
    (halfWord b0 b1 <<< 2) &&& 0x3f = (code2 b1 0).setWidth 32 := by
  unfold halfWord code2
  ext i hi
  interval_cases i <;> simp

-- What `decode` puts together.

theorem byte0_codes (b0 b1 : Byte) :
    (code0 b0 <<< 2) ||| ((code1 b0 b1 >>> 4) &&& 0x3) = b0 := by
  unfold code0 code1
  ext i hi
  interval_cases i <;> simp

theorem byte1_codes (b0 b1 b2 : Byte) :
    ((code1 b0 b1 <<< 4) &&& 0xf0) ||| ((code2 b1 b2 >>> 2) &&& 0xf) = b1 := by
  unfold code1 code2
  ext i hi
  interval_cases i <;> simp

theorem byte2_codes (b1 b2 : Byte) : ((code2 b1 b2 <<< 6) &&& 0xc0) ||| code3 b2 = b2 := by
  unfold code2 code3
  ext i hi
  interval_cases i <;> simp

-- ---------------------------------------------------------------------------
-- The tables are inverse to each other
-- ---------------------------------------------------------------------------

set_option maxRecDepth 2000 in
theorem tables_inverse : ∀ k : Fin 64,
    base64EncodeTable[k.val]? = some (letter (BitVec.ofNat 8 k.val)) ∧
      base64DecodeTable[(letter (BitVec.ofNat 8 k.val)).toNat]? = some (BitVec.ofNat 8 k.val) := by
  decide

theorem tables_of_lt {c : Byte} (h : c.toNat < 64) :
    base64EncodeTable[c.toNat]? = some (letter c) ∧
      base64DecodeTable[(letter c).toNat]? = some c := by
  have hk := tables_inverse ⟨c.toNat, h⟩
  rwa [BitVec.ofNat_toNat, BitVec.setWidth_eq] at hk

theorem putCode_eq (cur : Cursor) {c : Byte} (h : c.toNat < 64) :
    cur.putCode (c.setWidth 32) = cur.put (letter c) := by
  have hindex : (c.setWidth 32 : BitVec 32).toNat = c.toNat := by
    rw [BitVec.toNat_setWidth, Nat.mod_eq_of_lt (by omega)]
  rw [Cursor.putCode, hindex, (tables_of_lt h).1]
  rfl

theorem readNextChar_letter {c : Byte} (h : c.toNat < 64) (data : List Byte) :
    readNextChar (letter c :: data) = some (c, data) := by
  have hspace : c ≠ 97 := by
    rintro rfl
    exact absurd h (by decide)
  rw [readNextChar, (tables_of_lt h).2]
  exact if_neg hspace

theorem readNextChar_fill (data : List Byte) :
    readNextChar (base64Fillchar :: data) = some (96, data) := rfl

theorem readNextChar_newline (data : List Byte) :
    readNextChar (newline :: data) = readNextChar data := rfl

theorem readNextChar_zero (data : List Byte) : readNextChar (0 :: data) = some (99, data) := rfl

-- ---------------------------------------------------------------------------
-- The text of some data
-- ---------------------------------------------------------------------------

/-- The counter of groups in a line, which has 18 of them. -/
def nextGroup (k : Nat) : Nat := if k = 0 then 17 else k - 1

def groupText (formatted : Bool) (k : Nat) (b0 b1 b2 : Byte) : List Byte :=
  [letter (code0 b0), letter (code1 b0 b1), letter (code2 b1 b2), letter (code3 b2)] ++
    if formatted ∧ k = 0 then [newline] else []

def text (formatted : Bool) : (k : Nat) → List Byte → List Byte
  | k, b0 :: b1 :: b2 :: bs => groupText formatted k b0 b1 b2 ++ text formatted (nextGroup k) bs
  | _, [b0, b1] =>
    [letter (code0 b0), letter (code1 b0 b1), letter (code2 b1 0), base64Fillchar]
  | _, [b0] => [letter (code0 b0), letter (code1 b0 0), base64Fillchar, base64Fillchar]
  | _, [] => []

theorem length_text (formatted : Bool) {k : Nat} (hk : k ≤ 17) (bs : List Byte) :
    (text formatted k bs).length =
      4 * ((bs.length + 2) / 3) + if formatted then (bs.length / 3 + 17 - k) / 18 else 0 := by
  induction k, bs using text.induct with
  | case1 k b0 b1 b2 bs ih =>
    have hnext : nextGroup k ≤ 17 ∧
        (nextGroup k = k - 1 ∧ k ≠ 0 ∨ nextGroup k = 17 ∧ k = 0) := by
      rw [nextGroup]
      split <;> omega
    rw [text, List.length_append, ih hnext.1, groupText]
    cases formatted
    · simp
      omega
    · by_cases hzero : k = 0
      · simp [hzero, nextGroup]
        omega
      · simp [hzero, nextGroup]
        omega
  | case2 k b0 b1 =>
    cases formatted
    · simp [text]
    · simp [text]
      omega
  | case3 k b0 =>
    cases formatted
    · simp [text]
    · simp [text]
      omega
  | case4 k =>
    cases formatted
    · simp [text]
    · simp [text]
      omega

-- ---------------------------------------------------------------------------
-- encode
-- ---------------------------------------------------------------------------

def wrote (out ws : List Byte) : Cursor := ⟨ws ++ out.drop ws.length, ws.length⟩

theorem put_wrote {out ws : List Byte} (h : ws.length < out.length) (ch : Byte) :
    (wrote out ws).put ch = some (wrote out (ws ++ [ch])) := by
  have hroom : ws.length < (ws ++ out.drop ws.length).length := by
    rw [List.length_append, List.length_drop]
    omega
  have hdrop : out.drop ws.length = out[ws.length] :: out.drop (ws.length + 1) :=
    List.drop_eq_getElem_cons h
  rw [Cursor.put, wrote, if_pos hroom, wrote, List.set_append_right _ _ (Nat.le_refl _),
    Nat.sub_self, hdrop, List.set_cons_zero]
  simp

theorem putCode_wrote {out ws : List Byte} (h : ws.length < out.length) {c : Byte}
    (hc : c.toNat < 64) :
    (wrote out ws).putCode (c.setWidth 32) = some (wrote out (ws ++ [letter c])) := by
  rw [putCode_eq _ hc, put_wrote h]

theorem encodeRound_eq {formatted : Bool} {k : Nat} {s : EncodeState} {b0 b1 b2 : Byte}
    {bs out ws : List Byte} (hk : formatted = true → s.k = k)
    (hinbuf : s.inbuf = b0 :: b1 :: b2 :: bs) (hcursor : s.cursor = wrote out ws)
    (hroom : ws.length + (groupText formatted k b0 b1 b2).length ≤ out.length) (i : Nat) :
    ∃ s', encodeRound formatted s i = some s' ∧ (formatted = true → s'.k = nextGroup k) ∧
      s'.inbuf = bs ∧ s'.cursor = wrote out (ws ++ groupText formatted k b0 b1 b2) := by
  have hfour : ws.length + 4 ≤ out.length := by
    simp only [groupText, List.length_append, List.length_cons, List.length_nil] at hroom
    omega
  rw [encodeRound, hinbuf]
  dsimp only
  rw [hcursor, word_code0, word_code1, word_code2, word_code3, Option.bind_eq_bind,
    putCode_wrote (by omega) (code0_lt b0), Option.bind_some,
    putCode_wrote (by simp; omega) (code1_lt b0 b1), Option.bind_some,
    putCode_wrote (by simp; omega) (code2_lt b1 b2), Option.bind_some,
    putCode_wrote (by simp; omega) (code3_lt b2), Option.bind_some]
  cases formatted with
  | false => exact ⟨_, rfl, fun h => (Bool.false_ne_true h).elim, rfl, by simp [groupText]⟩
  | true =>
    rw [if_pos rfl, hk rfl]
    by_cases hzero : k = 0
    · subst hzero
      rw [if_pos (by omega), put_wrote (by simp [groupText] at hroom ⊢; omega)]
      exact ⟨_, rfl, fun _ => rfl, rfl, by simp [groupText]⟩
    · rw [if_neg (by omega)]
      refine ⟨_, rfl, fun _ => ?_, rfl, by simp [groupText, hzero]⟩
      rw [nextGroup, if_neg hzero]
      change (k : Int) - 1 = _
      omega

theorem encodeRest_two {b0 b1 : Byte} {out ws : List Byte} (h : ws.length + 4 ≤ out.length) :
    encodeRest 2 [b0, b1] (wrote out ws) = some (wrote out (ws ++
      [letter (code0 b0), letter (code1 b0 b1), letter (code2 b1 0), base64Fillchar])) := by
  rw [encodeRest, if_neg (by decide), if_pos rfl]
  change ((wrote out ws).putCode (halfWord b0 b1 >>> 10) >>= _) = _
  rw [two_code0, two_code1, two_code2, Option.bind_eq_bind,
    putCode_wrote (by omega) (code0_lt b0), Option.bind_some,
    putCode_wrote (by simp; omega) (code1_lt b0 b1), Option.bind_some,
    putCode_wrote (by simp; omega) (code2_lt b1 0), Option.bind_some,
    put_wrote (by simp; omega)]
  simp

theorem encodeRest_one {b0 : Byte} {out ws : List Byte} (h : ws.length + 4 ≤ out.length) :
    encodeRest 1 [b0] (wrote out ws) = some (wrote out (ws ++
      [letter (code0 b0), letter (code1 b0 0), base64Fillchar, base64Fillchar])) := by
  rw [encodeRest, if_pos rfl]
  change ((wrote out ws).putCode (b0.setWidth 32 >>> 2) >>= _) = _
  rw [one_code0, one_code1, Option.bind_eq_bind,
    putCode_wrote (by omega) (code0_lt b0), Option.bind_some,
    putCode_wrote (by simp; omega) (code1_lt b0 0), Option.bind_some,
    put_wrote (by simp; omega), Option.bind_some, put_wrote (by simp; omega)]
  simp

theorem encode_text (formatted : Bool) {k : Nat} (bs : List Byte) {out ws : List Byte}
    {s : EncodeState} {is : List Nat} (his : is.length = bs.length / 3)
    (hk : formatted = true → s.k = k) (hinbuf : s.inbuf = bs) (hcursor : s.cursor = wrote out ws)
    (hroom : ws.length + (text formatted k bs).length ≤ out.length) :
    (is.foldlM (encodeRound formatted) s >>= fun s =>
      encodeRest (bs.length % 3) s.inbuf s.cursor) =
      some (wrote out (ws ++ text formatted k bs)) := by
  induction k, bs using text.induct generalizing s is ws with
  | case1 k b0 b1 b2 bs ih =>
    cases is with
    | nil =>
      simp at his
      omega
    | cons i is =>
      rw [text, List.length_append] at hroom
      obtain ⟨s', hround, hk', hinbuf', hcursor'⟩ :=
        encodeRound_eq hk hinbuf hcursor (by omega) i
      have hlength : is.length = bs.length / 3 := by
        simp only [List.length_cons] at his
        omega
      have hmod : (b0 :: b1 :: b2 :: bs).length % 3 = bs.length % 3 := by
        simp only [List.length_cons]
        omega
      rw [List.foldlM_cons, hround, hmod, text, ← List.append_assoc]
      exact ih hlength hk' hinbuf' hcursor' (by rw [List.length_append]; omega)
  | case2 k b0 b1 =>
    obtain rfl : is = [] := by simpa using his
    rw [List.foldlM_nil]
    change encodeRest 2 s.inbuf s.cursor = _
    rw [hinbuf, hcursor, encodeRest_two hroom, text]
  | case3 k b0 =>
    obtain rfl : is = [] := by simpa using his
    rw [List.foldlM_nil]
    change encodeRest 1 s.inbuf s.cursor = _
    rw [hinbuf, hcursor, encodeRest_one hroom, text]
  | case4 k =>
    obtain rfl : is = [] := List.length_eq_zero_iff.mp his
    rw [List.foldlM_nil, text, List.append_nil]
    change encodeRest 0 s.inbuf s.cursor = _
    rw [hcursor]
    rfl

theorem toInt_ofInt_of_lt {a : Int} (h0 : 0 ≤ a) (h : a < 2 ^ 31) : (BitVec.ofInt 32 a).toInt = a := by
  rw [BitVec.toInt_ofInt]
  exact Int.bmod_eq_of_le (by omega) (by omega)

theorem encodeLength_eq {bs : List Byte} (hne : bs ≠ []) (hsmall : bs.length ≤ 2 ^ 30)
    (formatted : Bool) :
    encodeLength bs.length formatted = (text formatted 17 bs).length + 1 := by
  have hpos : 0 < bs.length := List.length_pos_iff.mpr hne
  have hthirds : ((bs.length : Int) - 1).tdiv 3 = ((bs.length - 1) / 3 : Nat) := by
    rw [Int.tdiv_eq_ediv_of_nonneg (by omega)]
    omega
  have hlines : ((bs.length : Nat) : Int).tdiv 54 = (bs.length / 54 : Nat) := by
    rw [Int.tdiv_eq_ediv_of_nonneg (by omega)]
    omega
  rw [encodeLength, length_text formatted (Nat.le_refl 17), hthirds, hlines]
  cases formatted with
  | false =>
    simp only [Bool.false_eq_true, if_false]
    rw [toInt_ofInt_of_lt (by omega) (by omega)]
    omega
  | true =>
    simp only [if_true]
    rw [← BitVec.ofInt_add, toInt_ofInt_of_lt (by omega) (by omega)]
    omega

theorem length_resize (s : List Byte) (n : Nat) : (resize s n).length = n := by
  rw [resize, List.length_append, List.length_take, List.length_replicate]
  omega

theorem encode_eq {bs : List Byte} (hne : bs ≠ []) (hsmall : bs.length ≤ 2 ^ 30)
    (outString : List Byte) (formatted : Bool) :
    encode bs outString formatted = some (text formatted 17 bs ++ [0]) := by
  have hlength := encodeLength_eq hne hsmall formatted
  obtain ⟨out, hout⟩ : ∃ out, out = resize outString (encodeLength bs.length formatted).toNat :=
    ⟨_, rfl⟩
  have hroom : out.length = (text formatted 17 bs).length + 1 := by
    rw [hout, length_resize, hlength]
    omega
  have hmod : bs.length - bs.length / 3 * 3 = bs.length % 3 := by omega
  have hwrote : (⟨out, 0⟩ : Cursor) = wrote out [] := rfl
  have hfits : ([] : List Byte).length + (text formatted 17 bs).length ≤ out.length := by
    rw [List.length_nil]
    omega
  have htext := encode_text formatted bs (s := ⟨bs, 17, ⟨out, 0⟩⟩)
    (List.length_range (n := bs.length / 3)) (fun _ => rfl) rfl hwrote hfits
  rw [List.nil_append] at htext
  rw [encode, if_neg (by omega), ← hout]
  dsimp only
  rw [hmod]
  simp only [Option.bind_eq_bind] at htext ⊢
  rw [← Option.bind_assoc, htext, Option.bind_some, put_wrote (by omega), Option.bind_some, wrote,
    List.drop_eq_nil_of_le (by rw [List.length_append, List.length_singleton]; omega),
    List.append_nil]

-- ---------------------------------------------------------------------------
-- decode
-- ---------------------------------------------------------------------------

theorem not_special {c : Byte} (h : c.toNat < 64) : c ≠ 96 ∧ c ≠ 98 ∧ c ≠ 99 := by
  refine ⟨?_, ?_, ?_⟩ <;>
    · rintro rfl
      exact absurd h (by decide)

theorem store_append (written rest : List Byte) (old b : Byte) :
    store (written ++ old :: rest) written.length b = some (written ++ b :: rest) := by
  rw [store, if_pos (by rw [List.length_append, List.length_cons]; omega),
    List.set_append_right _ _ (Nat.le_refl _), Nat.sub_self, List.set_cons_zero]

theorem decodeFrom_newline (len : Int) (rounds : Nat) (data : List Byte) (p : Nat)
    (buf : List Byte) :
    decodeFrom len rounds (newline :: data) p buf = decodeFrom len rounds data p buf := by
  cases rounds with
  | zero => rfl
  | succ rounds => rw [decodeFrom, decodeFrom, readNextChar_newline]

theorem decodeFrom_group {len : Int} {written : List Byte} (hlen : (written.length : Int) + 3 ≤ len)
    (formatted : Bool) (k : Nat) (b0 b1 b2 : Byte) (rounds : Nat) (data : List Byte)
    (o0 o1 o2 : Byte) (rest : List Byte) :
    decodeFrom len (rounds + 1) (groupText formatted k b0 b1 b2 ++ data) written.length
        (written ++ o0 :: o1 :: o2 :: rest) =
      decodeFrom len rounds data (written.length + 3) (written ++ b0 :: b1 :: b2 :: rest) := by
  obtain ⟨h96, h98, h99⟩ := not_special (code0_lt b0)
  obtain ⟨h96', h98', h99'⟩ := not_special (code1_lt b0 b1)
  obtain ⟨h96₂, h98₂, h99₂⟩ := not_special (code2_lt b1 b2)
  obtain ⟨h96₃, h98₃, h99₃⟩ := not_special (code3_lt b2)
  have hp : (written.length : Int) ≠ len := by omega
  have hp' : ((written.length + 1 : Nat) : Int) ≠ len := by omega
  have hp₂ : ((written.length + 1 + 1 : Nat) : Int) ≠ len := by omega
  have hstore : store (written ++ o0 :: o1 :: o2 :: rest) written.length b0 =
      some (written ++ b0 :: o1 :: o2 :: rest) := store_append ..
  have hstore' : store (written ++ b0 :: o1 :: o2 :: rest) (written.length + 1) b1 =
      some (written ++ b0 :: b1 :: o2 :: rest) := by
    simpa using store_append (written ++ [b0]) (o2 :: rest) o1 b1
  have hstore₂ : store (written ++ b0 :: b1 :: o2 :: rest) (written.length + 1 + 1) b2 =
      some (written ++ b0 :: b1 :: b2 :: rest) := by
    simpa using store_append (written ++ [b0, b1]) rest o2 b2
  rw [decodeFrom, groupText]
  simp only [List.cons_append, List.nil_append, readNextChar_letter, code0_lt, code1_lt, code2_lt,
    code3_lt, Option.bind_eq_bind, Option.bind_some, byte0_codes, byte1_codes, byte2_codes, hstore,
    hstore', hstore₂, hp, hp', hp₂, h96, h98, h99, h96', h98', h99', h96₂, h98₂, h99₂, h96₃,
    h98₃, h99₃, or_self, if_false]
  split
  · exact decodeFrom_newline ..
  · rfl

def fillError (p : Nat) (len : Int) : XMLError :=
  if (p : Int) = len then .eXMLErrorNone else .eXMLErrorBase64DecodeTruncatedData

theorem fill_ne : (96 : Byte) ≠ 98 ∧ (96 : Byte) ≠ 99 := by decide

theorem decodeFrom_two {len : Int} {written : List Byte} (hlen : (written.length : Int) + 2 ≤ len)
    (b0 b1 : Byte) (rounds : Nat) (data : List Byte) (o0 o1 : Byte) (rest : List Byte) :
    decodeFrom len (rounds + 1) ([letter (code0 b0), letter (code1 b0 b1), letter (code2 b1 0),
        base64Fillchar] ++ data) written.length (written ++ o0 :: o1 :: rest) =
      some ⟨true, fillError (written.length + 2) len, written ++ b0 :: b1 :: rest⟩ := by
  obtain ⟨h96, h98, h99⟩ := not_special (code0_lt b0)
  obtain ⟨h96', h98', h99'⟩ := not_special (code1_lt b0 b1)
  obtain ⟨h96₂, h98₂, h99₂⟩ := not_special (code2_lt b1 0)
  have hp : (written.length : Int) ≠ len := by omega
  have hp' : ((written.length + 1 : Nat) : Int) ≠ len := by omega
  have hstore : store (written ++ o0 :: o1 :: rest) written.length b0 =
      some (written ++ b0 :: o1 :: rest) := store_append ..
  have hstore' : store (written ++ b0 :: o1 :: rest) (written.length + 1) b1 =
      some (written ++ b0 :: b1 :: rest) := by
    simpa using store_append (written ++ [b0]) rest o1 b1
  rw [decodeFrom]
  simp only [List.cons_append, List.nil_append, readNextChar_letter, readNextChar_fill, code0_lt,
    code1_lt, code2_lt, Option.bind_eq_bind, Option.bind_some, byte0_codes, byte1_codes, hstore,
    hstore', hp, hp', h96, h98, h99, h96', h98', h99', h96₂, h98₂, h99₂, or_self, if_false,
    fill_ne, if_true]
  rw [fillError]
  split <;> rfl

theorem decodeFrom_one {len : Int} {written : List Byte} (hlen : (written.length : Int) + 1 ≤ len)
    (b0 : Byte) (rounds : Nat) (data : List Byte) (o0 : Byte) (rest : List Byte) :
    decodeFrom len (rounds + 1) ([letter (code0 b0), letter (code1 b0 0), base64Fillchar,
        base64Fillchar] ++ data) written.length (written ++ o0 :: rest) =
      some ⟨true, fillError (written.length + 1) len, written ++ b0 :: rest⟩ := by
  obtain ⟨h96, h98, h99⟩ := not_special (code0_lt b0)
  obtain ⟨h96', h98', h99'⟩ := not_special (code1_lt b0 0)
  have hp : (written.length : Int) ≠ len := by omega
  rw [decodeFrom]
  simp only [List.cons_append, List.nil_append, readNextChar_letter, readNextChar_fill, code0_lt,
    code1_lt, Option.bind_eq_bind, Option.bind_some, byte0_codes, store_append, hp, h96, h98, h99,
    h96', h98', h99', or_self, if_false, fill_ne, if_true]
  rw [fillError]
  split <;> rfl

/-- The text of `bs` puts `bs` into the buffer behind what has been written. -/
theorem decodeFrom_text (formatted : Bool) {k : Nat} (bs : List Byte) {len : Int}
    {written old : List Byte} (hlen : (written.length : Int) + bs.length ≤ len)
    (hold : bs.length ≤ old.length) {rounds : Nat} (hrounds : bs.length / 3 < rounds)
    (junk : List Byte) :
    decodeFrom len rounds (text formatted k bs ++ 0 :: junk) written.length (written ++ old) =
      some ⟨true, if bs.length % 3 = 0 then .eXMLErrorNone else fillError (written.length + bs.length) len,
        written ++ bs ++ old.drop bs.length⟩ := by
  obtain ⟨rounds, rfl⟩ : ∃ n, rounds = n + 1 := ⟨rounds - 1, by omega⟩
  induction k, bs using text.induct generalizing written old rounds with
  | case1 k b0 b1 b2 bs ih =>
    obtain ⟨o0, o1, o2, old, rfl⟩ : ∃ o0 o1 o2 rest, old = o0 :: o1 :: o2 :: rest := by
      match old, hold with
      | o0 :: o1 :: o2 :: rest, _ => exact ⟨o0, o1, o2, rest, rfl⟩
    simp only [List.length_cons] at hlen hold hrounds
    obtain ⟨rounds, rfl⟩ : ∃ n, rounds = n + 1 := ⟨rounds - 1, by omega⟩
    rw [text, List.append_assoc, decodeFrom_group (by omega)]
    have hrest := @ih (written ++ [b0, b1, b2]) old
      (by simp; omega) (by omega) rounds (by omega)
    simp only [List.length_append, List.length_cons, List.length_nil, List.append_assoc,
      List.cons_append, List.nil_append] at hrest ⊢
    have hmod : (bs.length + 1 + 1 + 1) % 3 = bs.length % 3 := by omega
    have hp : written.length + (bs.length + 1 + 1 + 1) = written.length + 3 + bs.length := by omega
    rw [hmod, hp]
    exact hrest
  | case2 k b0 b1 =>
    obtain ⟨o0, o1, old, rfl⟩ : ∃ o0 o1 rest, old = o0 :: o1 :: rest := by
      match old, hold with
      | o0 :: o1 :: rest, _ => exact ⟨o0, o1, rest, rfl⟩
    rw [text, decodeFrom_two (by simpa using hlen)]
    simp
  | case3 k b0 =>
    obtain ⟨o0, old, rfl⟩ : ∃ o0 rest, old = o0 :: rest := by
      match old, hold with
      | o0 :: rest, _ => exact ⟨o0, rest, rfl⟩
    rw [text, decodeFrom_one (by simpa using hlen)]
    simp
  | case4 k =>
    rw [text, List.nil_append, decodeFrom, readNextChar_zero]
    simp

-- The buffer is full before a group, or after one or two bytes of it.

theorem decodeFrom_full {b0 b1 b2 : Byte} (rounds : Nat) (data buf : List Byte) (p : Nat) :
    decodeFrom p (rounds + 1) (letter (code0 b0) :: letter (code1 b1 b2) :: data) p buf =
      some ⟨false, .eXMLErrorBase64DecodeBufferTooSmall, buf⟩ := by
  obtain ⟨h96, h98, h99⟩ := not_special (code0_lt b0)
  obtain ⟨h96', h98', h99'⟩ := not_special (code1_lt b1 b2)
  rw [decodeFrom]
  simp only [readNextChar_letter, code0_lt, code1_lt, Option.bind_eq_bind, Option.bind_some, h96,
    h98, h99, h96', h98', h99', or_self, if_false, if_true]

theorem decodeFrom_full_one {b0 b1 b2 : Byte} (rounds : Nat) (data written : List Byte) (o0 : Byte) :
    decodeFrom (written.length + 1 : Nat) (rounds + 1)
        (letter (code0 b0) :: letter (code1 b0 b1) :: letter (code2 b1 b2) :: data) written.length
        (written ++ [o0]) =
      some ⟨false, .eXMLErrorBase64DecodeBufferTooSmall, written ++ [b0]⟩ := by
  obtain ⟨h96, h98, h99⟩ := not_special (code0_lt b0)
  obtain ⟨h96', h98', h99'⟩ := not_special (code1_lt b0 b1)
  obtain ⟨h96₂, h98₂, h99₂⟩ := not_special (code2_lt b1 b2)
  have hp : (written.length : Int) ≠ (written.length + 1 : Nat) := by omega
  rw [decodeFrom]
  simp only [readNextChar_letter, code0_lt, code1_lt, code2_lt, Option.bind_eq_bind,
    Option.bind_some, byte0_codes, store_append, hp, h96, h98, h99, h96', h98', h99', h96₂, h98₂,
    h99₂, or_self, if_false, if_true]

theorem decodeFrom_full_two {b0 b1 b2 : Byte} (rounds : Nat) (data written : List Byte)
    (o0 o1 : Byte) :
    decodeFrom (written.length + 2 : Nat) (rounds + 1)
        (letter (code0 b0) :: letter (code1 b0 b1) :: letter (code2 b1 b2) :: letter (code3 b2) :: data)
        written.length (written ++ [o0, o1]) =
      some ⟨false, .eXMLErrorBase64DecodeBufferTooSmall, written ++ [b0, b1]⟩ := by
  obtain ⟨h96, h98, h99⟩ := not_special (code0_lt b0)
  obtain ⟨h96', h98', h99'⟩ := not_special (code1_lt b0 b1)
  obtain ⟨h96₂, h98₂, h99₂⟩ := not_special (code2_lt b1 b2)
  obtain ⟨h96₃, h98₃, h99₃⟩ := not_special (code3_lt b2)
  have hp : (written.length : Int) ≠ (written.length + 2 : Nat) := by omega
  have hp' : ((written.length + 1 : Nat) : Int) ≠ (written.length + 2 : Nat) := by omega
  have hfull : ((written.length + 1 + 1 : Nat) : Int) = (written.length + 2 : Nat) := rfl
  have hstore : store (written ++ [b0, o1]) (written.length + 1) b1 = some (written ++ [b0, b1]) := by
    simpa using store_append (written ++ [b0]) [] o1 b1
  rw [decodeFrom]
  simp only [readNextChar_letter, code0_lt, code1_lt, code2_lt, code3_lt, Option.bind_eq_bind,
    Option.bind_some, byte0_codes, byte1_codes, store_append, hstore, hp, hp', hfull, h96, h98, h99,
    h96', h98', h99', h96₂, h98₂, h99₂, h96₃, h98₃, h99₃, or_self, if_false, if_true]

/-- Into a buffer that is too small as much is written as it has room for. -/
theorem decodeFrom_short (formatted : Bool) {k : Nat} (bs : List Byte) {len : Int}
    {written old : List Byte} (hlen : len = (written.length + old.length : Nat))
    (hshort : old.length < bs.length) {rounds : Nat} (hrounds : bs.length / 3 < rounds)
    (junk : List Byte) :
    decodeFrom len rounds (text formatted k bs ++ 0 :: junk) written.length (written ++ old) =
      some ⟨false, .eXMLErrorBase64DecodeBufferTooSmall, written ++ bs.take old.length⟩ := by
  obtain ⟨rounds, rfl⟩ : ∃ n, rounds = n + 1 := ⟨rounds - 1, by omega⟩
  induction k, bs using text.induct generalizing written old rounds with
  | case1 k b0 b1 b2 bs ih =>
    match old with
    | [] =>
      subst hlen
      simpa [text, groupText] using decodeFrom_full rounds _ written written.length
    | [o0] =>
      subst hlen
      simpa [text, groupText] using decodeFrom_full_one rounds _ written o0
    | [o0, o1] =>
      subst hlen
      simpa [text, groupText] using decodeFrom_full_two rounds _ written o0 o1
    | o0 :: o1 :: o2 :: old =>
      simp only [List.length_cons] at hlen hshort hrounds
      obtain ⟨rounds, rfl⟩ : ∃ n, rounds = n + 1 := ⟨rounds - 1, by omega⟩
      rw [text, List.append_assoc, decodeFrom_group (by omega)]
      have hrest := @ih (written ++ [b0, b1, b2]) old (by simp; omega) (by omega) rounds (by omega)
      simpa using hrest
  | case2 k b0 b1 =>
    match old, hshort with
    | [], _ =>
      subst hlen
      simpa [text] using decodeFrom_full rounds _ written written.length
    | [o0], _ =>
      subst hlen
      simpa [text] using decodeFrom_full_one rounds _ written o0
  | case3 k b0 =>
    match old, hshort with
    | [], _ =>
      subst hlen
      simpa [text] using decodeFrom_full rounds _ written written.length
  | case4 k => simp at hshort

/-- Of no data nothing but the first character is written. -/
theorem encode_nil (outString : List Byte) (formatted : Bool) :
    encode [] outString formatted = some (0 :: (resize outString 5).drop 1) := by
  have hlength : encodeLength 0 formatted = 5 := by cases formatted <;> rfl
  have hroom : 0 < (resize outString 5).length := by
    rw [length_resize]
    decide
  have hput : (⟨resize outString 5, 0⟩ : Cursor).put 0 =
      some ⟨0 :: (resize outString 5).drop 1, 1⟩ := by
    rw [Cursor.put, if_pos hroom]
    obtain ⟨ch, rest, hcons⟩ := List.exists_cons_of_length_pos hroom
    rw [hcons]
    rfl
  rw [encode]
  simp only [List.length_nil, Nat.cast_zero, hlength]
  change ((⟨resize outString 5, 0⟩ : Cursor).put 0 >>= fun c => some c.out) = _
  rw [hput]
  rfl

theorem exists_encode {bs : List Byte} (hsmall : bs.length ≤ 2 ^ 30) (outString : List Byte)
    (formatted : Bool) : ∃ s, encode bs outString formatted = some s := by
  rcases eq_or_ne bs [] with rfl | hne
  · exact ⟨_, encode_nil outString formatted⟩
  · exact ⟨_, encode_eq hne hsmall outString formatted⟩

theorem decode_of_encode {bs : List Byte} (hsmall : bs.length ≤ 2 ^ 30) {outString : List Byte}
    {formatted : Bool} {s : List Byte} (hs : encode bs outString formatted = some s)
    {buf : List Byte} {len : Int} (hlen : bs.length ≤ len) (hbuf : bs.length ≤ buf.length) :
    ∃ xe, decode s buf len = some ⟨true, xe, bs ++ buf.drop bs.length⟩ ∧
      (bs.length = len → xe = .eXMLErrorNone) := by
  rcases eq_or_ne bs [] with rfl | hne
  · rw [encode_nil] at hs
    obtain rfl := Option.some.inj hs
    exact ⟨.eXMLErrorNone, rfl, fun _ => rfl⟩
  · rw [encode_eq hne hsmall] at hs
    obtain rfl := Option.some.inj hs
    have hrounds : bs.length / 3 < (text formatted 17 bs ++ [0]).length + 1 := by
      rw [List.length_append, length_text formatted (Nat.le_refl 17), List.length_singleton]
      omega
    have hdecode := @decodeFrom_text formatted 17 bs len [] buf
      (by simpa using hlen) hbuf _ hrounds [0]
    refine ⟨if bs.length % 3 = 0 then .eXMLErrorNone else fillError (0 + bs.length) len, ?_, fun heq => ?_⟩
    · rw [decode, List.append_assoc]
      exact hdecode
    · split
      · rfl
      · rw [fillError, if_pos (by simpa using heq)]

theorem decode_of_encode_short {bs : List Byte} (hsmall : bs.length ≤ 2 ^ 30) {outString : List Byte}
    {formatted : Bool} {s : List Byte} (hs : encode bs outString formatted = some s)
    {buf : List Byte} (hbuf : buf.length < bs.length) :
    decode s buf buf.length =
      some ⟨false, .eXMLErrorBase64DecodeBufferTooSmall, bs.take buf.length⟩ := by
  have hne : bs ≠ [] := by
    rintro rfl
    exact absurd hbuf (Nat.not_lt_zero _)
  rw [encode_eq hne hsmall] at hs
  obtain rfl := Option.some.inj hs
  have hrounds : bs.length / 3 < (text formatted 17 bs ++ [0]).length + 1 := by
    rw [List.length_append, length_text formatted (Nat.le_refl 17), List.length_singleton]
    omega
  rw [decode, List.append_assoc]
  exact @decodeFrom_short formatted 17 bs buf.length [] buf (by simp) hbuf _ hrounds [0]

/-- Encoded and decoded, data come back into any buffer that has room for them,
and the buffer is as it was behind them. -/
theorem encode_decode (bs : List Byte) (hsmall : bs.length ≤ 2 ^ 30) (outString : List Byte)
    (formatted : Bool) :
    ∃ s, encode bs outString formatted = some s ∧ ∀ (buf : List Byte) (len : Int),
      bs.length ≤ len → bs.length ≤ buf.length →
      ∃ xe, decode s buf len = some ⟨true, xe, bs ++ buf.drop bs.length⟩ ∧
        (bs.length = len → xe = .eXMLErrorNone) := by
  obtain ⟨s, hs⟩ := exists_encode hsmall outString formatted
  exact ⟨s, hs, fun buf len hlen hbuf => decode_of_encode hsmall hs hlen hbuf⟩

theorem encode_decode_four :
    ∃ s, encode [77, 97, 110, 1] [] true = some s ∧ ∀ (buf : List Byte) (len : Int),
      (4 : Nat) ≤ len → 4 ≤ buf.length →
      ∃ xe, decode s buf len = some ⟨true, xe, [77, 97, 110, 1] ++ buf.drop 4⟩ ∧
        ((4 : Nat) = len → xe = .eXMLErrorNone) :=
  encode_decode [77, 97, 110, 1] (by decide) [] true

-- ---------------------------------------------------------------------------
-- Any string
-- ---------------------------------------------------------------------------

set_option maxRecDepth 2000 in
theorem length_base64DecodeTable : base64DecodeTable.length = 256 := by decide

theorem readNextChar_of_mem {data : List Byte} (h : 0 ∈ data) :
    ∃ c rest, readNextChar data = some (c, rest) ∧ rest.length < data.length ∧
      (c ≠ 99 → 0 ∈ rest) := by
  induction data with
  | nil => cases h
  | cons ch data ih =>
    obtain ⟨c, hc⟩ : ∃ c, base64DecodeTable[ch.toNat]? = some c :=
      ⟨_, List.getElem?_eq_getElem (by rw [length_base64DecodeTable]; exact ch.isLt)⟩
    rw [readNextChar, hc]
    dsimp only
    rcases List.mem_cons.mp h with rfl | hmem
    · obtain rfl : 99 = c := Option.some.inj hc
      exact ⟨99, data, rfl, Nat.lt_succ_self _, fun hne => absurd rfl hne⟩
    · split
      · obtain ⟨c, rest, hread, hlt, hrest⟩ := ih hmem
        exact ⟨c, rest, hread, Nat.lt_succ_of_lt hlt, hrest⟩
      · exact ⟨c, data, rfl, Nat.lt_succ_self _, fun _ => hmem⟩

/-- A result, and what lies in the buffer from `len` on has not been touched. -/
def Safe (len : Int) (buf : List Byte) (result : Option Decoded) : Prop :=
  ∃ r, result = some r ∧ r.buf.length = buf.length ∧ r.buf.drop len.toNat = buf.drop len.toNat

section Safety

variable {len : Int} {buf : List Byte}

theorem safe_some (ok : Bool) (xe : XMLError) : Safe len buf (some ⟨ok, xe, buf⟩) :=
  ⟨_, rfl, rfl, rfl⟩

theorem safe_ite {c : Prop} [Decidable c] {r r' : Option Decoded} (h : c → Safe len buf r)
    (h' : ¬c → Safe len buf r') : Safe len buf (if c then r else r') := by
  by_cases hc : c
  · rw [if_pos hc]
    exact h hc
  · rw [if_neg hc]
    exact h' hc

theorem safe_read {data : List Byte} (h : 0 ∈ data) {next : Byte × List Byte → Option Decoded}
    (hnext : ∀ c rest, rest.length < data.length → (c ≠ 99 → 0 ∈ rest) →
      Safe len buf (next (c, rest))) : Safe len buf (readNextChar data >>= next) := by
  obtain ⟨c, rest, hread, hlt, hrest⟩ := readNextChar_of_mem h
  rw [hread]
  exact hnext c rest hlt hrest

theorem safe_store {p : Nat} (hp : p < len) (hlen : len ≤ buf.length) (b : Byte)
    {next : List Byte → Option Decoded}
    (hnext : ∀ buf', buf'.length = buf.length → Safe len buf' (next buf')) :
    Safe len buf (store buf p b >>= next) := by
  rw [store, if_pos (by omega)]
  obtain ⟨r, hr, hlength, hdrop⟩ := hnext (buf.set p b) List.length_set
  refine ⟨r, hr, hlength.trans List.length_set, ?_⟩
  rw [hdrop, List.drop_set_of_lt (by omega)]

theorem decodeFrom_safe {rounds : Nat} {data : List Byte} {p : Nat} (h : 0 ∈ data)
    (hrounds : data.length ≤ rounds) (hp : p ≤ len) (hlen : len ≤ buf.length) :
    Safe len buf (decodeFrom len rounds data p buf) := by
  induction rounds generalizing data p buf with
  | zero =>
    obtain rfl : data = [] := List.length_eq_zero_iff.mp (Nat.le_zero.mp hrounds)
    cases h
  | succ rounds ih =>
    rw [decodeFrom]
    refine safe_read h fun c data₁ hlt₁ hmem₁ => ?_
    refine safe_ite (fun _ => safe_some ..) fun _ => ?_
    refine safe_ite (fun _ => safe_some ..) fun hend => ?_
    refine safe_ite (fun _ => safe_ite (fun _ => safe_some ..) fun _ => safe_some ..) fun _ => ?_
    refine safe_read (hmem₁ hend) fun d data₂ hlt₂ hmem₂ => ?_
    refine safe_ite (fun _ => safe_some ..) fun _ => ?_
    refine safe_ite (fun _ => safe_some ..) fun hend => ?_
    refine safe_ite (fun _ => safe_some ..) fun hp₀ => ?_
    refine safe_store (by omega) hlen _ fun buf₁ hbuf₁ => ?_
    refine safe_read (hmem₂ fun h => hend (.inl h)) fun c data₃ hlt₃ hmem₃ => ?_
    refine safe_ite (fun _ => safe_some ..) fun _ => ?_
    refine safe_ite (fun _ => safe_some ..) fun hend => ?_
    refine safe_ite (fun _ => safe_ite (fun _ => safe_some ..) fun _ => safe_some ..) fun hp₁ => ?_
    refine safe_ite (fun _ => safe_some ..) fun _ => ?_
    refine safe_store (by omega) (by omega) _ fun buf₂ hbuf₂ => ?_
    refine safe_read (hmem₃ hend) fun d data₄ hlt₄ hmem₄ => ?_
    refine safe_ite (fun _ => safe_some ..) fun _ => ?_
    refine safe_ite (fun _ => safe_some ..) fun hend => ?_
    refine safe_ite (fun _ => safe_ite (fun _ => safe_some ..) fun _ => safe_some ..) fun hp₂ => ?_
    refine safe_ite (fun _ => safe_some ..) fun _ => ?_
    refine safe_store (by omega) (by omega) _ fun buf₃ hbuf₃ => ?_
    exact ih (hmem₄ hend) (by omega) (by omega) (by omega)

end Safety

/-- On any string whatever, `decode` comes to an end and touches nothing but the
first `len` bytes of the buffer. -/
theorem decode_safe (inString : List Byte) {buf : List Byte} {len : Int} (h0 : 0 ≤ len)
    (hlen : len ≤ buf.length) : Safe len buf (decode inString buf len) := by
  have hend : (0 : Byte) ∈ inString ++ [0] := List.mem_append_right _ (List.mem_singleton_self 0)
  exact decodeFrom_safe hend (by rw [List.length_append, List.length_singleton]) h0 hlen

theorem decode_safe_short :
    Safe 3 [0, 0, 0, 9] (decode [84, 87, 70, 117, 84, 87, 70, 117] [0, 0, 0, 9] 3) :=
  decode_safe _ (by decide) (by decide)

-- ---------------------------------------------------------------------------
-- Spaces
-- ---------------------------------------------------------------------------

/-- What a string says: its characters before the first zero, without spaces. -/
def bare (data : List Byte) : List Byte :=
  (data.takeWhile (· ≠ 0)).filter fun ch => base64DecodeTable[ch.toNat]? ≠ some 97

theorem takeWhile_cons_ne {ch : Byte} (h : ch ≠ 0) (data : List Byte) :
    (ch :: data).takeWhile (· ≠ 0) = ch :: data.takeWhile (· ≠ 0) :=
  List.takeWhile_cons_of_pos (decide_eq_true h)

theorem readNextChar_bare {data : List Byte} (h : 0 ∈ data) :
    (bare data = [] ∧ ∃ rest, readNextChar data = some (99, rest)) ∨
      ∃ ch c rest, bare data = ch :: bare rest ∧ base64DecodeTable[ch.toNat]? = some c ∧
        readNextChar data = some (c, rest) ∧ 0 ∈ rest := by
  induction data with
  | nil => cases h
  | cons ch data ih =>
    by_cases hzero : ch = 0
    · subst hzero
      exact .inl ⟨rfl, data, rfl⟩
    · have hmem : 0 ∈ data := by
        rcases List.mem_cons.mp h with heq | hmem
        · exact absurd heq.symm hzero
        · exact hmem
      obtain ⟨c, hc⟩ : ∃ c, base64DecodeTable[ch.toNat]? = some c :=
        ⟨_, List.getElem?_eq_getElem (by rw [length_base64DecodeTable]; exact ch.isLt)⟩
      rw [readNextChar, hc]
      dsimp only
      by_cases hspace : c = 97
      · have hbare : bare (ch :: data) = bare data := by
          rw [bare, takeWhile_cons_ne hzero, List.filter_cons_of_neg (by simp [hc, hspace]), bare]
        rw [if_pos hspace, hbare]
        exact ih hmem
      · have hbare : bare (ch :: data) = ch :: bare data := by
          have hcode : base64DecodeTable[ch.toNat]? ≠ some 97 := by
            rw [hc]
            exact fun h => hspace (Option.some.inj h)
          rw [bare, takeWhile_cons_ne hzero]
          exact List.filter_cons_of_pos (decide_eq_true hcode)
        rw [if_neg hspace]
        exact .inr ⟨ch, c, data, hbare, hc, rfl, hmem⟩

def Same (data data' : List Byte) : Prop := 0 ∈ data ∧ 0 ∈ data' ∧ bare data = bare data'

theorem Same.read {data data' : List Byte} (h : Same data data')
    {next next' : Byte × List Byte → Option Decoded}
    (hnext : ∀ c rest rest', rest.length < data.length → rest'.length < data'.length →
      (c ≠ 99 → Same rest rest') → next (c, rest) = next' (c, rest')) :
    (readNextChar data >>= next) = (readNextChar data' >>= next') := by
  obtain ⟨hmem, hmem', hsame⟩ := h
  have hlt {data rest : List Byte} {c : Byte} (h : 0 ∈ data)
      (hread : readNextChar data = some (c, rest)) : rest.length < data.length := by
    obtain ⟨c', rest', hread', hlt, -⟩ := readNextChar_of_mem h
    obtain ⟨-, rfl⟩ := Prod.mk.inj (Option.some.inj (hread.symm.trans hread'))
    exact hlt
  rcases readNextChar_bare hmem with ⟨hbare, rest, hread⟩ | ⟨ch, c, rest, hbare, hc, hread, hin⟩ <;>
    rcases readNextChar_bare hmem' with ⟨hbare', rest', hread'⟩ |
      ⟨ch', c', rest', hbare', hc', hread', hin'⟩
  · rw [hread, hread']
    exact hnext 99 rest rest' (hlt hmem hread) (hlt hmem' hread') fun h => absurd rfl h
  · rw [hbare, hbare'] at hsame
    cases hsame
  · rw [hbare, hbare'] at hsame
    cases hsame
  · rw [hbare, hbare'] at hsame
    obtain ⟨rfl, hrest⟩ := List.cons.inj hsame
    obtain rfl : c = c' := Option.some.inj (hc.symm.trans hc')
    rw [hread, hread']
    exact hnext c rest rest' (hlt hmem hread) (hlt hmem' hread') fun _ => ⟨hin, hin', hrest⟩

theorem ite_same {c : Prop} [Decidable c] {r r' s s' : Option Decoded} (h : c → r = s)
    (h' : ¬c → r' = s') : (if c then r else r') = if c then s else s' := by
  by_cases hc : c
  · rw [if_pos hc, if_pos hc, h hc]
  · rw [if_neg hc, if_neg hc, h' hc]

theorem decodeFrom_same {len : Int} {rounds rounds' : Nat} {data data' : List Byte}
    (h : Same data data') (hrounds : data.length ≤ rounds) (hrounds' : data'.length ≤ rounds')
    (p : Nat) (buf : List Byte) :
    decodeFrom len rounds data p buf = decodeFrom len rounds' data' p buf := by
  induction rounds generalizing rounds' data data' p buf with
  | zero =>
    obtain rfl : data = [] := List.length_eq_zero_iff.mp (Nat.le_zero.mp hrounds)
    cases h.1
  | succ rounds ih =>
    obtain ⟨rounds', rfl⟩ : ∃ n, rounds' = n + 1 :=
      ⟨rounds' - 1, by have := List.length_pos_of_mem h.2.1; omega⟩
    rw [decodeFrom, decodeFrom]
    refine h.read fun c data₁ data₁' hlt₁ hlt₁' hsame₁ => ?_
    refine ite_same (fun _ => rfl) fun _ => ite_same (fun _ => rfl) fun hend => ?_
    refine ite_same (fun _ => rfl) fun _ => ?_
    refine (hsame₁ hend).read fun d data₂ data₂' hlt₂ hlt₂' hsame₂ => ?_
    refine ite_same (fun _ => rfl) fun _ => ite_same (fun _ => rfl) fun hend => ?_
    refine ite_same (fun _ => rfl) fun _ => Option.bind_congr fun buf₁ _ => ?_
    refine (hsame₂ fun h => hend (.inl h)).read fun c data₃ data₃' hlt₃ hlt₃' hsame₃ => ?_
    refine ite_same (fun _ => rfl) fun _ => ite_same (fun _ => rfl) fun hend => ?_
    refine ite_same (fun _ => rfl) fun _ => ite_same (fun _ => rfl) fun _ => ?_
    refine Option.bind_congr fun buf₂ _ => ?_
    refine (hsame₃ hend).read fun d data₄ data₄' hlt₄ hlt₄' hsame₄ => ?_
    refine ite_same (fun _ => rfl) fun _ => ite_same (fun _ => rfl) fun hend => ?_
    refine ite_same (fun _ => rfl) fun _ => ite_same (fun _ => rfl) fun _ => ?_
    exact Option.bind_congr fun buf₃ _ =>
      ih (hsame₄ hend) (by omega) (by omega) _ buf₃

/-- Spaces, and what stands behind a zero, make no difference. -/
theorem decode_same {inString inString' : List Byte} (h : bare inString = bare inString')
    (buf : List Byte) (len : Int) : decode inString buf len = decode inString' buf len := by
  have hend (s : List Byte) : (0 : Byte) ∈ s ++ [0] :=
    List.mem_append_right _ (List.mem_singleton_self 0)
  have hbare (s : List Byte) : bare (s ++ [0]) = bare s := by
    rw [bare, bare]
    congr 1
    induction s with
    | nil => rfl
    | cons ch s ih =>
      by_cases hzero : ch = 0
      · subst hzero
        rfl
      · rw [List.cons_append, takeWhile_cons_ne hzero, takeWhile_cons_ne hzero, ih]
  refine decodeFrom_same ⟨hend _, hend _, ?_⟩ (by simp) (by simp) 0 buf
  rw [hbare, hbare, h]

-- ---------------------------------------------------------------------------
-- VarBlob
-- ---------------------------------------------------------------------------

/-- The bytes that the data pointer points to; there are `getDataSize()`. -/
structure VarBlob where
  data : List Byte

namespace VarBlob

def getSerialString (blob : VarBlob) (val : List Byte) : Option (List Byte) :=
  encode blob.data val true

def setSerialString (blob : VarBlob) (val : List Byte) : Option VarBlob :=
  (decode val blob.data blob.data.length).map fun d => ⟨d.buf⟩

theorem setSerialString_of_bare (blob : VarBlob) (hsmall : blob.data.length ≤ 2 ^ 30)
    {val s s' : List Byte} (hs : blob.getSerialString val = some s) (hsame : bare s' = bare s)
    (other : VarBlob) :
    other.setSerialString s' =
      some ⟨blob.data.take other.data.length ++ other.data.drop blob.data.length⟩ := by
  rw [setSerialString, decode_same hsame]
  by_cases hroom : blob.data.length ≤ other.data.length
  · obtain ⟨xe, hdecode, -⟩ :=
      @decode_of_encode _ hsmall _ _ _ hs other.data other.data.length (by omega) hroom
    rw [hdecode, List.take_of_length_le hroom]
    rfl
  · rw [decode_of_encode_short hsmall hs (by omega), List.drop_eq_nil_of_le (by omega),
      List.append_nil]
    rfl

/-- Stored in a settings file and read back, a blob is as it was, whatever the
blob it is read into held and whatever spaces the file has gained or lost. -/
theorem setSerialString_getSerialString (blob : VarBlob) (hsmall : blob.data.length ≤ 2 ^ 30)
    (val : List Byte) :
    ∃ s, blob.getSerialString val = some s ∧ ∀ (s' : List Byte) (other : VarBlob),
      bare s' = bare s → other.data.length = blob.data.length →
      other.setSerialString s' = some blob := by
  obtain ⟨s, hs⟩ := exists_encode hsmall val true
  refine ⟨s, hs, fun s' other hsame hsize => ?_⟩
  rw [setSerialString_of_bare blob hsmall hs hsame, hsize, List.take_length, ← hsize, List.drop_length,
    List.append_nil]

theorem setSerialString_getSerialString_two :
    ∃ s, (⟨[1, 2]⟩ : VarBlob).getSerialString [] = some s ∧ ∀ (s' : List Byte) (other : VarBlob),
      bare s' = bare s → other.data.length = 2 → other.setSerialString s' = some ⟨[1, 2]⟩ :=
  setSerialString_getSerialString ⟨[1, 2]⟩ (by decide) []

end VarBlob

end LARCmaCS.Base64
