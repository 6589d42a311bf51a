import LARCmaCS.Message
import Mathlib.Algebra.Group.Int.Defs

/-!
# The second encoder, and the layout both share

`larcmacs.cpp` has its own CRC function and its own serializer for the remote
control. `generateByteArray_eq_serializeCommand` shows the two encoders give
the same bytes; `Frame.decode` reads the layout back.
-/

namespace LARCmaCS

open LittleEndian (Byte)

-- ---------------------------------------------------------------------------
-- serializeCommand
-- ---------------------------------------------------------------------------

def crc32Table (i : Nat) : BitVec 32 :=
  Nat.repeat (fun crc => if crc &&& 1 > 0 then (crc >>> 1) ^^^ 0xEDB88320 else crc >>> 1) 8
    (BitVec.ofNat 32 i)

/-- The loop of `Crc32`. `buf[vsp]` is a `QByteRef` here, which also reads
as a signed `char`. -/
def crc32Loop (buf : QByteArray) : (len vsp : Nat) → vsp + len ≤ buf.length → BitVec 32 → BitVec 32
  | 0, _, _, crc => crc
  | len + 1, vsp, h, crc =>
    crc32Loop buf len (vsp + 1) (by omega)
      (crc32Table ((crc ^^^ (buf.get ⟨vsp, by omega⟩).signExtend 32) &&& 0xFF).toNat ^^^ (crc >>> 8))

def crc32 (buf : QByteArray) (len : Nat) (h : len ≤ buf.length) : BitVec 32 :=
  crc32Loop buf len 0 (Message.zero_add_le_length h) 0xFFFFFFFF ^^^ 0xFFFFFFFF

structure CommandData where
  speedX : BitVec 32
  speedY : BitVec 32
  speedR : BitVec 32
  speedDribbler : BitVec 32
  dribblerEnable : BitVec 8
  kickerVoltageLevel : BitVec 32
  kickerChargeEnable : BitVec 8
  kickUp : BitVec 8
  kickForward : BitVec 8

def CommandData.payload (data : CommandData) : QByteArray :=
  let byteArray : QByteArray := put8 (put8 (put8 (put8 [] 0xAA) 0xAA) 0xAA) 0xAA
  let byteArray := put32 byteArray data.speedX
  let byteArray := put32 byteArray data.speedY
  let byteArray := put32 byteArray data.speedR
  let byteArray := put32 byteArray data.speedDribbler
  let byteArray := put8 byteArray data.dribblerEnable
  let byteArray := put32 byteArray data.kickerVoltageLevel
  let byteArray := put8 byteArray data.kickerChargeEnable
  let byteArray := put8 byteArray data.kickUp
  put8 byteArray data.kickForward

@[simp] theorem CommandData.length_payload (data : CommandData) : data.payload.length = 28 := rfl

def serializeCommand (data : CommandData) : QByteArray :=
  put32 data.payload (crc32 data.payload 28 (Nat.le_of_eq data.length_payload.symm))

-- ---------------------------------------------------------------------------
-- The two encoders agree
-- ---------------------------------------------------------------------------

def Message.toCommandData (msg : Message) : CommandData where
  speedX := msg.mSpeedX
  speedY := msg.mSpeedY
  speedR := msg.mSpeedR
  speedDribbler := msg.mSpeedDribbler
  dribblerEnable := msg.mDribblerEnable.setWidth 8
  kickerVoltageLevel := msg.mKickerVoltageLevel
  kickerChargeEnable := msg.mKickerChargeEnable.setWidth 8
  kickUp := msg.mKickUp.setWidth 8
  kickForward := msg.mKickForward.setWidth 8

theorem crcLoop_eq_crc32Loop (buf : QByteArray) (len vsp : Nat) (h : vsp + len ≤ buf.length)
    (crc : BitVec 32) : Message.crcLoop buf len vsp h crc = crc32Loop buf len vsp h crc := by
  induction len generalizing vsp crc with
  | zero => rfl
  | succ len ih => exact ih (vsp + 1) _ _

theorem calculateCRC_eq_crc32 (buf : QByteArray) (len : Nat) (h : len ≤ buf.length) :
    Message.calculateCRC buf len h = crc32 buf len h := by
  rw [Message.calculateCRC, crc32, crcLoop_eq_crc32Loop]

theorem generateByteArray_eq_serializeCommand (msg : Message) :
    msg.generateByteArray = serializeCommand msg.toCommandData := by
  rw [Message.generateByteArray, calculateCRC_eq_crc32]
  rfl

-- ---------------------------------------------------------------------------
-- Decoding
-- ---------------------------------------------------------------------------

def readWord (ba : QByteArray) (offset : Nat) : BitVec 32 :=
  LittleEndian.decode 32 ((ba.drop offset).take 4)

def readByte (ba : QByteArray) (offset : Nat) : BitVec 8 :=
  LittleEndian.decode 8 ((ba.drop offset).take 1)

/-- The little-endian layout of a command frame. -/
structure Frame where
  sync : List Byte
  speedX : BitVec 32
  speedY : BitVec 32
  speedR : BitVec 32
  speedDribbler : BitVec 32
  dribblerEnable : BitVec 8
  kickerVoltageLevel : BitVec 32
  kickerChargeEnable : BitVec 8
  kickUp : BitVec 8
  kickForward : BitVec 8
  crc : BitVec 32
  deriving DecidableEq

def Frame.decode (ba : QByteArray) : Frame where
  sync := ba.take 4
  speedX := readWord ba 4
  speedY := readWord ba 8
  speedR := readWord ba 12
  speedDribbler := readWord ba 16
  dribblerEnable := readByte ba 20
  kickerVoltageLevel := readWord ba 21
  kickerChargeEnable := readByte ba 25
  kickUp := readByte ba 26
  kickForward := readByte ba 27
  crc := readWord ba 28

/-- A 32-bit field carries an `int`: its value modulo `2 ^ 32`, which read as
two's complement is the value itself. -/
def Carries32 (field : BitVec 32) (value : CInt) : Prop :=
  (field.toNat : Int) = value.toInt % 2 ^ 32 ∧ field.toInt = value.toInt

def Carries8 (field : BitVec 8) (value : CInt) : Prop := (field.toNat : Int) = value.toInt % 2 ^ 8

theorem carries32_self (value : CInt) : Carries32 value value := by
  refine ⟨?_, rfl⟩
  have := value.isLt
  rw [BitVec.toInt_eq_toNat_cond]
  split <;> omega

theorem carries8_setWidth (value : CInt) : Carries8 (value.setWidth 8) value := by
  have := value.isLt
  rw [Carries8, BitVec.toInt_eq_toNat_cond, BitVec.toNat_setWidth]
  split <;> omega

structure Frame.Carries (frame : Frame) (msg : Message) : Prop where
  speedX : Carries32 frame.speedX msg.mSpeedX
  speedY : Carries32 frame.speedY msg.mSpeedY
  speedR : Carries32 frame.speedR msg.mSpeedR
  speedDribbler : Carries32 frame.speedDribbler msg.mSpeedDribbler
  dribblerEnable : Carries8 frame.dribblerEnable msg.mDribblerEnable
  kickerVoltageLevel : Carries32 frame.kickerVoltageLevel msg.mKickerVoltageLevel
  kickerChargeEnable : Carries8 frame.kickerChargeEnable msg.mKickerChargeEnable
  kickUp : Carries8 frame.kickUp msg.mKickUp
  kickForward : Carries8 frame.kickForward msg.mKickForward

theorem decode_generateByteArray (msg : Message) :
    Frame.decode msg.generateByteArray =
      { sync := [0xAA, 0xAA, 0xAA, 0xAA]
        speedX := msg.mSpeedX
        speedY := msg.mSpeedY
        speedR := msg.mSpeedR
        speedDribbler := msg.mSpeedDribbler
        dribblerEnable := msg.mDribblerEnable.setWidth 8
        kickerVoltageLevel := msg.mKickerVoltageLevel
        kickerChargeEnable := msg.mKickerChargeEnable.setWidth 8
        kickUp := msg.mKickUp.setWidth 8
        kickForward := msg.mKickForward.setWidth 8
        crc := Message.calculateCRC msg.payload 28 (Nat.le_of_eq msg.length_payload.symm) } := by
  have word (x : BitVec 32) : LittleEndian.decode 32 (LittleEndian.encode 4 x) = x :=
    LittleEndian.decode_encode x (by omega)
  have byte (x : BitVec 8) : LittleEndian.decode 8 (LittleEndian.encode 1 x) = x :=
    LittleEndian.decode_encode x (by omega)
  rw [Frame.decode, Frame.mk.injEq]
  exact ⟨rfl, word _, word _, word _, word _, byte _, word _, byte _, byte _, byte _, word _⟩

theorem carries_generateByteArray (msg : Message) :
    (Frame.decode msg.generateByteArray).Carries msg := by
  rw [decode_generateByteArray]
  constructor <;> first | exact carries32_self _ | exact carries8_setWidth _

theorem take_generateByteArray (msg : Message) : msg.generateByteArray.take 28 = msg.payload :=
  List.take_left' msg.length_payload

@[simp] theorem length_generateByteArray (msg : Message) : msg.generateByteArray.length = 32 := by
  rw [Message.generateByteArray, put32, List.length_append, msg.length_payload,
    LittleEndian.length_encode]

theorem drop_generateByteArray (msg : Message) :
    msg.generateByteArray.drop 28 = LittleEndian.encode 4
      (Message.calculateCRC msg.payload 28 (Nat.le_of_eq msg.length_payload.symm)) :=
  List.drop_left' msg.length_payload

/-- The last four bytes are the checksum of those before them. -/
theorem exists_trailer (msg : Message) :
    ∃ h : 28 ≤ (msg.generateByteArray.take 28).length,
      msg.generateByteArray.drop 28 =
        LittleEndian.encode 4 (Message.calculateCRC (msg.generateByteArray.take 28) 28 h) := by
  have hlength : 28 ≤ (msg.generateByteArray.take 28).length := by
    rw [take_generateByteArray]
    exact Nat.le_of_eq msg.length_payload.symm
  refine ⟨hlength, ?_⟩
  rw [drop_generateByteArray]
  congr 1

/-- The two encoders agree on a frame of 32 bytes: the sync bytes, the nine
fields, and the checksum that either CRC function takes of all before it. -/
theorem generateByteArray_decodable (msg : Message) :
    msg.generateByteArray = serializeCommand msg.toCommandData ∧
      msg.generateByteArray.length = 32 ∧
      (Frame.decode msg.generateByteArray).sync = [0xAA, 0xAA, 0xAA, 0xAA] ∧
      (Frame.decode msg.generateByteArray).Carries msg ∧
      ∃ h : 28 ≤ (msg.generateByteArray.take 28).length,
        msg.generateByteArray.drop 28 =
            LittleEndian.encode 4 (Message.calculateCRC (msg.generateByteArray.take 28) 28 h) ∧
          msg.generateByteArray.drop 28 =
            LittleEndian.encode 4 (crc32 (msg.generateByteArray.take 28) 28 h) := by
  refine ⟨generateByteArray_eq_serializeCommand msg, length_generateByteArray msg,
    congrArg Frame.sync (decode_generateByteArray msg), carries_generateByteArray msg, ?_⟩
  obtain ⟨hlength, htrailer⟩ := exists_trailer msg
  exact ⟨hlength, htrailer, by rwa [← calculateCRC_eq_crc32]⟩

end LARCmaCS
