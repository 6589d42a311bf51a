import LARCmaCS.CommandData
import LARCmaCS.Lib.Crc
import Mathlib.Data.List.GetD
import Mathlib.Data.Bool.Basic

/-!
# The frame's checksum and what it detects

Both checksum functions feed their buffer to a CRC register, a byte at a time
through a table but with the effect of one bit at a time (`crc_eq_bitwise`). A
frame with its checksum leaves the same residue whatever its fields are, so a
corrupted frame passes only if the error pattern leaves nothing, which no
burst of up to 32 bits does.
-/

namespace LARCmaCS

open LittleEndian (Byte)

-- ---------------------------------------------------------------------------
-- Bits of a byte string
-- ---------------------------------------------------------------------------

/-- Bit `k`: bit `k % 8`, least significant first, of byte `k / 8`. -/
def bitAt (ba : QByteArray) (k : Nat) : Bool := (ba.getD (k / 8) 0).getLsbD (k % 8)

def byteBits (b : Byte) : List Bool := (List.range 8).map b.getLsbD

def bits (ba : QByteArray) : List Bool := ba.flatMap byteBits

@[simp] theorem length_byteBits (b : Byte) : (byteBits b).length = 8 := by simp [byteBits]

theorem getD_byteBits (b : Byte) (k : Nat) : (byteBits b).getD k false = b.getLsbD k := by
  by_cases hk : k < 8
  · simp [byteBits, hk]
  · rw [List.getD_eq_default _ _ (by simp; omega), BitVec.getLsbD_of_ge b k (by omega)]

@[simp] theorem length_bits (ba : QByteArray) : (bits ba).length = 8 * ba.length := by
  induction ba with
  | nil => rfl
  | cons b ba ih =>
    simp only [bits, List.flatMap_cons, List.length_append, length_byteBits, List.length_cons] at ih ⊢
    omega

theorem bits_append (ba more : QByteArray) : bits (ba ++ more) = bits ba ++ bits more :=
  List.flatMap_append

theorem getD_bits (ba : QByteArray) (k : Nat) : (bits ba).getD k false = bitAt ba k := by
  induction ba generalizing k with
  | nil => simp [bits, bitAt]
  | cons b ba ih =>
    have hcons : bits (b :: ba) = byteBits b ++ bits ba := rfl
    by_cases hk : k < 8
    · rw [hcons, List.getD_append _ _ _ _ (by simpa using hk), getD_byteBits, bitAt,
        Nat.div_eq_of_lt hk, Nat.mod_eq_of_lt hk, List.getD_cons_zero]
    · obtain ⟨j, rfl⟩ : ∃ j, k = j + 8 := ⟨k - 8, by omega⟩
      rw [hcons, List.getD_append_right _ _ _ _ (by simp), length_byteBits, Nat.add_sub_cancel, ih,
        bitAt, bitAt, Nat.add_div_right j (by decide), Nat.add_mod_right, List.getD_cons_succ]

def corrupt (ba e : QByteArray) : QByteArray := List.zipWith (· ^^^ ·) ba e

theorem bits_corrupt {ba e : QByteArray} (h : ba.length = e.length) :
    bits (corrupt ba e) = List.zipWith (· ^^ ·) (bits ba) (bits e) := by
  induction ba generalizing e with
  | nil => rfl
  | cons b ba ih =>
    cases e with
    | nil => cases h
    | cons c e =>
      have hbyte : byteBits (b ^^^ c) = List.zipWith (· ^^ ·) (byteBits b) (byteBits c) := by
        simp [byteBits, List.zipWith_map]
      have hcons : bits (corrupt (b :: ba) (c :: e)) = byteBits (b ^^^ c) ++ bits (corrupt ba e) := rfl
      rw [hcons, hbyte, ih (Nat.succ.inj h), ← List.zipWith_append (by simp)]
      rfl

theorem bitAt_corrupt {ba e : QByteArray} (h : ba.length = e.length) (k : Nat) :
    bitAt (corrupt ba e) k = (bitAt ba k ^^ bitAt e k) := by
  rw [← getD_bits, ← getD_bits, ← getD_bits, bits_corrupt h]
  have hbits : (bits ba).length = (bits e).length := by simp [h]
  rcases Nat.lt_or_ge k (bits ba).length with hk | hk
  · rw [List.getD_eq_getElem _ _ (by simpa [← hbits] using hk), List.getD_eq_getElem _ _ hk,
      List.getD_eq_getElem _ _ (hbits ▸ hk), List.getElem_zipWith]
  · rw [List.getD_eq_default _ _ (by simpa [← hbits] using hk), List.getD_eq_default _ _ hk,
      List.getD_eq_default _ _ (hbits ▸ hk)]
    rfl

theorem corrupt_corrupt {ba other : QByteArray} (h : ba.length = other.length) :
    corrupt ba (corrupt ba other) = other := by
  induction ba generalizing other with
  | nil => exact (List.eq_nil_of_length_eq_zero h.symm).symm
  | cons b ba ih =>
    cases other with
    | nil => cases h
    | cons c other =>
      have hbyte : b ^^^ (b ^^^ c) = c := by rw [← BitVec.xor_assoc, BitVec.xor_self, BitVec.zero_xor]
      exact congrArg₂ List.cons hbyte (ih (Nat.succ.inj h))

theorem eq_of_bitAt {ba other : QByteArray} (h : ba.length = other.length)
    (hbits : ∀ k, bitAt ba k = bitAt other k) : ba = other := by
  refine List.ext_getElem h fun i hi hi' => BitVec.eq_of_getLsbD_eq fun j hj => ?_
  have hk := hbits (8 * i + j)
  rw [bitAt, bitAt, show (8 * i + j) / 8 = i by omega, show (8 * i + j) % 8 = j by omega] at hk
  simpa [List.getElem?_eq_getElem hi, List.getElem?_eq_getElem hi'] using hk

-- ---------------------------------------------------------------------------
-- The checksum as a register
-- ---------------------------------------------------------------------------

def polynomial : BitVec 32 := 0xEDB88320

namespace Message

theorem crcShift_eq_shift (crc : BitVec 32) : crcShift crc = Crc.shift polynomial crc := by
  have hbit : crc &&& 1 > 0 ↔ crc.getLsbD 0 = true := by
    change crc &&& 1#32 > 0 ↔ _
    rw [BitVec.and_one_eq_setWidth_ofBool_getLsbD]
    cases crc.getLsbD 0 <;> decide
  simp only [crcShift, Crc.shift, hbit, polynomial]

theorem crcTable_eq_iterate (i : Nat) :
    crcTable i = (Crc.shift polynomial)^[8] (BitVec.ofNat 32 i) := by
  rw [← funext crcShift_eq_shift]
  rfl

theorem getLsbD_ofBits_byteBits (b : Byte) (i : Nat) :
    (Crc.ofBits 32 (byteBits b)).getLsbD i = b.getLsbD i := by
  rw [Crc.getLsbD_ofBits, getD_byteBits]
  by_cases hi : i < 32
  · simp [hi]
  · simp [hi, BitVec.getLsbD_of_ge b i (by omega)]

/-- One round of the loop takes the eight bits of a byte; the index of the
table drops the bits that sign extension adds. -/
theorem crcTable_xor_eq_feed (crc : BitVec 32) (b : Byte) :
    crcTable ((crc ^^^ b.signExtend 32) &&& 0xFF).toNat ^^^ (crc >>> 8) =
      Crc.feed polynomial crc (byteBits b) := by
  have hsplit : crc ^^^ Crc.ofBits 32 (byteBits b) =
      ((crc ^^^ b.signExtend 32) &&& (0xFF : BitVec 32)) ^^^ ((crc >>> 8) <<< 8) := by
    refine BitVec.eq_of_getLsbD_eq fun i hi => ?_
    simp only [BitVec.getLsbD_xor, getLsbD_ofBits_byteBits, BitVec.getLsbD_and,
      BitVec.getLsbD_shiftLeft, BitVec.getLsbD_ushiftRight, BitVec.getLsbD_signExtend, hi]
    have hmask : (0xFF : BitVec 32).getLsbD i = decide (i < 8) := by
      change (BitVec.setWidth 32 (BitVec.allOnes 8)).getLsbD i = _
      rw [BitVec.getLsbD_setWidth, BitVec.getLsbD_allOnes]
      simp [hi]
    rw [hmask]
    by_cases hi8 : i < 8
    · simp [hi8]
    · simp [hi8, BitVec.getLsbD_of_ge b i (by omega), show 8 + (i - 8) = i by omega]
  have hhigh : (Crc.shift polynomial)^[8] ((crc >>> 8) <<< 8) = crc >>> 8 := by
    rw [Crc.iterate_shift_of_low (by simp +contextual)]
    refine BitVec.eq_of_getLsbD_eq fun i hi => ?_
    by_cases hi8 : 8 + i < 32
    · simp [hi8]
    · simp [hi8, BitVec.getLsbD_of_ge crc (8 + i) (by omega)]
  rw [crcTable_eq_iterate, BitVec.ofNat_toNat, BitVec.setWidth_eq,
    Crc.feed_eq_iterate_shift (by simp), length_byteBits, hsplit, Crc.iterate_shift_xor, hhigh]

theorem crcLoop_eq_feed (buf : QByteArray) (len vsp : Nat) (h : vsp + len ≤ buf.length)
    (crc : BitVec 32) :
    crcLoop buf len vsp h crc = Crc.feed polynomial crc (bits ((buf.drop vsp).take len)) := by
  induction len generalizing vsp crc with
  | zero => simp [crcLoop, bits]
  | succ len ih =>
    have hdrop : buf.drop vsp = buf.get ⟨vsp, by omega⟩ :: buf.drop (vsp + 1) :=
      List.drop_eq_getElem_cons (by omega)
    rw [crcLoop, ih, crcTable_xor_eq_feed, hdrop, List.take_succ_cons, ← Crc.feed_append]
    rfl

theorem calculateCRC_eq_feed (buf : QByteArray) (len : Nat) (h : len ≤ buf.length) :
    calculateCRC buf len h =
      Crc.feed polynomial 0xFFFFFFFF (bits (buf.take len)) ^^^ 0xFFFFFFFF := by
  rw [calculateCRC, crcLoop_eq_feed, List.drop_zero]

end Message

/-- The reflected CRC-32 by its definition: all ones, one shift for each bit of
the message, the complement. -/
def bitwiseCRC (ba : QByteArray) : BitVec 32 :=
  ~~~Crc.feed polynomial 0xFFFFFFFF (bits ba)

theorem calculateCRC_eq_bitwiseCRC (buf : QByteArray) (len : Nat) (h : len ≤ buf.length) :
    Message.calculateCRC buf len h = bitwiseCRC (buf.take len) := by
  rw [Message.calculateCRC_eq_feed, bitwiseCRC]
  exact BitVec.xor_allOnes

theorem bitwiseCRC_append (ba more : QByteArray) :
    bitwiseCRC (ba ++ more) = ~~~Crc.feed polynomial (~~~bitwiseCRC ba) (bits more) := by
  rw [bitwiseCRC, bits_append, Crc.feed_append, bitwiseCRC, BitVec.not_not]

theorem bitwiseCRC_append_eq_crcLoop (ba more : QByteArray) (h : 0 + more.length ≤ more.length) :
    bitwiseCRC (ba ++ more) = ~~~Message.crcLoop more more.length 0 h (~~~bitwiseCRC ba) := by
  rw [bitwiseCRC_append, Message.crcLoop_eq_feed, List.drop_zero, List.take_length]

/-- Both functions compute the CRC-32 of the first `len` bytes, and that of a
longer message by going on from the register they left. -/
theorem crc_eq_bitwise (buf : QByteArray) (len : Nat) (h : len ≤ buf.length) :
    Message.calculateCRC buf len h = bitwiseCRC (buf.take len) ∧
      crc32 buf len h = bitwiseCRC (buf.take len) ∧
      ∀ (more : QByteArray) (h' : (buf.take len ++ more).length ≤ (buf.take len ++ more).length)
        (hmore : 0 + more.length ≤ more.length),
        Message.calculateCRC (buf.take len ++ more) (buf.take len ++ more).length h' =
            ~~~Message.crcLoop more more.length 0 hmore (~~~Message.calculateCRC buf len h) ∧
          crc32 (buf.take len ++ more) (buf.take len ++ more).length h' =
            ~~~crc32Loop more more.length 0 hmore (~~~crc32 buf len h) := by
  have hcrc := calculateCRC_eq_bitwiseCRC buf len h
  refine ⟨hcrc, (calculateCRC_eq_crc32 buf len h).symm.trans hcrc, fun more h' hmore => ?_⟩
  have hwhole := calculateCRC_eq_bitwiseCRC (buf.take len ++ more) _ h'
  rw [List.take_length, bitwiseCRC_append_eq_crcLoop _ _ hmore, ← hcrc] at hwhole
  refine ⟨hwhole, ?_⟩
  rw [← calculateCRC_eq_crc32, ← calculateCRC_eq_crc32, ← crcLoop_eq_crc32Loop]
  exact hwhole

/-- The check value of CRC-32, that of the digits 1 to 9. -/
theorem crc_eq_bitwise_digits :
    bitwiseCRC [0x31, 0x32, 0x33, 0x34, 0x35, 0x36, 0x37, 0x38, 0x39] = 0xCBF43926 ∧
      Message.calculateCRC [0x31, 0x32, 0x33, 0x34, 0x35, 0x36, 0x37, 0x38, 0x39] 9 (by decide) =
        0xCBF43926 := by
  have hvalue : bitwiseCRC [0x31, 0x32, 0x33, 0x34, 0x35, 0x36, 0x37, 0x38, 0x39] = 0xCBF43926 := by
    decide +kernel
  exact ⟨hvalue, (crc_eq_bitwise _ 9 (by decide)).1.trans hvalue⟩

-- ---------------------------------------------------------------------------
-- Bursts
-- ---------------------------------------------------------------------------

theorem ofBits_encode (x : BitVec 32) : Crc.ofBits 32 (bits (LittleEndian.encode 4 x)) = x := by
  refine BitVec.eq_of_getLsbD_eq fun i hi => ?_
  rw [Crc.getLsbD_ofBits, getD_bits, bitAt, LittleEndian.getD_encode x (by omega)]
  simp [hi, Nat.div_add_mod, Nat.mod_lt i (show 0 < 8 by decide)]

def Passes (frame : QByteArray) : Prop :=
  ∃ h : 28 ≤ (frame.take 28).length,
    frame.drop 28 = LittleEndian.encode 4 (Message.calculateCRC (frame.take 28) 28 h)

theorem Passes.residue {frame : QByteArray} (h : Passes frame) :
    Crc.feed polynomial 0xFFFFFFFF (bits frame) = (Crc.shift polynomial)^[32] 0xFFFFFFFF := by
  obtain ⟨hlen, hcrc⟩ := h
  rw [Message.calculateCRC_eq_feed, List.take_take, Nat.min_self] at hcrc
  have htrailer : (bits (frame.drop 28)).length = 32 := by rw [hcrc, length_bits]; rfl
  rw [← List.take_append_drop 28 frame, bits_append, Crc.feed_append,
    Crc.feed_eq_iterate_shift (Nat.le_of_eq htrailer), htrailer, hcrc, ofBits_encode,
    ← BitVec.xor_assoc, BitVec.xor_self, BitVec.zero_xor]

theorem passes_generateByteArray (msg : Message) : Passes msg.generateByteArray :=
  exists_trailer msg

/-- The set bits lie within 32 consecutive positions. -/
def Burst (e : QByteArray) : Prop := ∃ s, ∀ k, bitAt e k = true → s ≤ k ∧ k < s + 32

theorem Burst.feed_ne_zero {e : QByteArray} (h : Burst e) (hne : ∃ k, bitAt e k = true) :
    Crc.feed polynomial 0#32 (bits e) ≠ 0#32 := by
  obtain ⟨s, hs⟩ := h
  have hget : ∀ k b, (bits e)[k]? = some b → b = bitAt e k := by
    intro k b hb
    rw [← getD_bits, List.getD_eq_getElem?_getD, hb, Option.getD_some]
  rw [← List.take_append_drop s (bits e), ← List.take_append_drop 32 ((bits e).drop s)]
  refine Crc.feed_burst_ne_zero (by decide) ?_ ?_ (List.length_take_le ..) ?_
  · intro b hb
    obtain ⟨k, hk⟩ := List.mem_iff_getElem?.mp hb
    rw [List.getElem?_take] at hk
    split at hk
    · rw [hget k b hk]
      exact Bool.eq_false_of_not_eq_true fun hbit => absurd (hs k hbit).1 (by omega)
    · cases hk
  · intro b hb
    obtain ⟨k, hk⟩ := List.mem_iff_getElem?.mp hb
    rw [List.getElem?_drop, List.getElem?_drop] at hk
    rw [hget _ b hk]
    exact Bool.eq_false_of_not_eq_true fun hbit => absurd (hs _ hbit).2 (by omega)
  · obtain ⟨k, hk⟩ := hne
    obtain ⟨hle, hlt⟩ := hs k hk
    have hk' : (bits e)[k]? = some true := by
      rw [← getD_bits, List.getD_eq_getElem?_getD] at hk
      cases hb : (bits e)[k]? <;> simp_all
    refine List.mem_iff_getElem?.mpr ⟨k - s, ?_⟩
    rw [List.getElem?_take_of_lt (by omega), List.getElem?_drop, Nat.add_sub_cancel' hle, hk']

theorem not_passes_corrupt {frame e : QByteArray} (hframe : Passes frame)
    (hlength : frame.length = e.length) (hne : ∃ k, bitAt e k = true) (hburst : Burst e) :
    ¬ Passes (corrupt frame e) := by
  intro h
  have hlinear := Crc.feed_xor (P := polynomial) (r := 0xFFFFFFFF) (s := 0#32)
    (show (bits frame).length = (bits e).length by simp [hlength])
  rw [← bits_corrupt hlength, BitVec.xor_zero, h.residue, hframe.residue] at hlinear
  have hzero := congrArg ((Crc.shift polynomial)^[32] 0xFFFFFFFF ^^^ ·) hlinear
  simp only [← BitVec.xor_assoc, BitVec.xor_self, BitVec.zero_xor] at hzero
  exact hburst.feed_ne_zero hne hzero.symm

/-- A burst of up to 32 bits is detected in every frame, so no two frames
differ inside a window of 32 bits only. -/
theorem burst_detected (msg : Message) :
    (∀ e : QByteArray, e.length = 32 → (∃ k, bitAt e k = true) → Burst e →
      ∃ h : 28 ≤ ((corrupt msg.generateByteArray e).take 28).length,
        (corrupt msg.generateByteArray e).drop 28 ≠ LittleEndian.encode 4
          (Message.calculateCRC ((corrupt msg.generateByteArray e).take 28) 28 h)) ∧
      ∀ other : Message, msg.generateByteArray ≠ other.generateByteArray →
        ¬ ∃ s, ∀ k, bitAt msg.generateByteArray k ≠ bitAt other.generateByteArray k →
          s ≤ k ∧ k < s + 32 := by
  constructor
  · intro e he hne hburst
    have hlength : 28 ≤ ((corrupt msg.generateByteArray e).take 28).length := by
      simp [corrupt, he]
    refine ⟨hlength, fun hcrc => ?_⟩
    exact not_passes_corrupt (passes_generateByteArray msg) (by simp [he]) hne hburst ⟨hlength, hcrc⟩
  · rintro other hne ⟨s, hs⟩
    have hlength : msg.generateByteArray.length = other.generateByteArray.length := by simp
    have hbit (k : Nat) := bitAt_corrupt hlength k
    refine not_passes_corrupt (e := corrupt msg.generateByteArray other.generateByteArray)
      (passes_generateByteArray msg) (by simp [corrupt, hlength]) ?_ ⟨s, fun k hk => ?_⟩ ?_
    · by_contra hall
      refine hne (eq_of_bitAt hlength fun k => ?_)
      have hk : ¬ bitAt (corrupt _ _) k = true := fun hk => hall ⟨k, hk⟩
      simpa [hbit k] using hk
    · refine hs k fun heq => ?_
      simp [hbit k, heq] at hk
    · rw [corrupt_corrupt hlength]
      exact passes_generateByteArray other

theorem burst_detected_first_byte :
    let frame := corrupt (({} : Message).setSpeedX 100).generateByteArray (7 :: List.replicate 31 0)
    ∃ h : 28 ≤ (frame.take 28).length,
      frame.drop 28 ≠ LittleEndian.encode 4 (Message.calculateCRC (frame.take 28) 28 h) := by
  intro frame
  refine (burst_detected (({} : Message).setSpeedX 100)).1 _ rfl ⟨0, by decide⟩ ⟨0, fun k hk => ?_⟩
  by_contra hlate
  obtain ⟨i, hi⟩ : ∃ i, k / 8 = i + 1 := ⟨k / 8 - 1, by omega⟩
  rw [bitAt, hi, List.getD_cons_succ] at hk
  by_cases hlt : i < 31
  · rw [List.getD_eq_getElem _ _ (by simpa using hlt), List.getElem_replicate] at hk
    simp at hk
  · rw [List.getD_eq_default _ _ (by simpa using hlt)] at hk
    simp at hk

end LARCmaCS
