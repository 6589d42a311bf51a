import LARCmaCS.Lib.LittleEndian

/-!
# The robot command frame

`Message` of `message.cpp`: nine `int` fields, their setters and getters, and
the 32-byte frame `generateByteArray` builds from them. `QDataStream` is
taken to append fixed-width integers in the byte order that was set.
-/

namespace LARCmaCS

open LittleEndian (Byte)

abbrev CInt := BitVec 32

abbrev QByteArray := List Byte

def put8 (ba : QByteArray) (b : BitVec 8) : QByteArray := ba ++ LittleEndian.encode 1 b

def put32 (ba : QByteArray) (w : BitVec 32) : QByteArray := ba ++ LittleEndian.encode 4 w

structure Message where
  mSpeedX : CInt := 0
  mSpeedY : CInt := 0
  mSpeedR : CInt := 0
  mSpeedDribbler : CInt := 0
  mDribblerEnable : CInt := 0
  mKickerVoltageLevel : CInt := 0
  mKickerChargeEnable : CInt := 0
  mKickUp : CInt := 0
  mKickForward : CInt := 0
  deriving DecidableEq, Repr

namespace Message

def setSpeedX (msg : Message) (speedX : CInt) : Message := { msg with mSpeedX := speedX }
def setSpeedY (msg : Message) (speedY : CInt) : Message := { msg with mSpeedY := speedY }
def setSpeedR (msg : Message) (speedR : CInt) : Message := { msg with mSpeedR := speedR }

def setKickVoltageLevel (msg : Message) (kickerVoltageLevel : CInt) : Message :=
  { msg with mKickerVoltageLevel := kickerVoltageLevel }

def setKickerChargeEnable (msg : Message) (kickerChargeEnable : CInt) : Message :=
  { msg with mKickerChargeEnable := kickerChargeEnable }

def setKickForward (msg : Message) (kickForward : CInt) : Message :=
  { msg with mKickForward := kickForward }

def getSpeedX (msg : Message) : CInt := msg.mSpeedX
def getSpeedY (msg : Message) : CInt := msg.mSpeedY
def getSpeedR (msg : Message) : CInt := msg.mSpeedR
def getKickUp (msg : Message) : CInt := msg.mKickUp
def getKickForward (msg : Message) : CInt := msg.mKickForward

-- ---------------------------------------------------------------------------
-- The checksum
-- ---------------------------------------------------------------------------

def crcShift (crc : BitVec 32) : BitVec 32 :=
  if crc &&& 1 > 0 then (crc >>> 1) ^^^ 0xEDB88320 else crc >>> 1

def crcTable (i : Nat) : BitVec 32 := Nat.repeat crcShift 8 (BitVec.ofNat 32 i)

/-- The `while (len-- > 0)` loop. `buf[vsp]` is a signed `char`, so it is
sign-extended before the exclusive or. -/
def crcLoop (buf : QByteArray) : (len vsp : Nat) → vsp + len ≤ buf.length → BitVec 32 → BitVec 32
  | 0, _, _, crc => crc
  | len + 1, vsp, h, crc =>
    crcLoop buf len (vsp + 1) (by omega)
      (crcTable ((crc ^^^ (buf.get ⟨vsp, by omega⟩).signExtend 32) &&& 0xFF).toNat ^^^ (crc >>> 8))

theorem zero_add_le_length {buf : QByteArray} {len : Nat} (h : len ≤ buf.length) :
    0 + len ≤ buf.length := by
  rwa [Nat.zero_add]

def calculateCRC (buf : QByteArray) (len : Nat) (h : len ≤ buf.length) : BitVec 32 :=
  crcLoop buf len 0 (zero_add_le_length h) 0xFFFFFFFF ^^^ 0xFFFFFFFF

-- ---------------------------------------------------------------------------
-- The frame
-- ---------------------------------------------------------------------------

/-- What `generateByteArray` has written when it takes the checksum. The
casts `(quint32)` and `(quint8)` keep the low bits. -/
def payload (msg : Message) : QByteArray :=
  let ba : QByteArray := Nat.repeat (put8 · 0xAA) 4 []
  let ba := put32 ba msg.mSpeedX
  let ba := put32 ba msg.mSpeedY
  let ba := put32 ba msg.mSpeedR
  let ba := put32 ba msg.mSpeedDribbler
  let ba := put8 ba (msg.mDribblerEnable.setWidth 8)
  let ba := put32 ba msg.mKickerVoltageLevel
  let ba := put8 ba (msg.mKickerChargeEnable.setWidth 8)
  let ba := put8 ba (msg.mKickUp.setWidth 8)
  put8 ba (msg.mKickForward.setWidth 8)

@[simp] theorem length_payload (msg : Message) : msg.payload.length = 28 := rfl

def generateByteArray (msg : Message) : QByteArray :=
  put32 msg.payload (calculateCRC msg.payload 28 (Nat.le_of_eq msg.length_payload.symm))

end Message

end LARCmaCS
