import LARCmaCS.Lib.Machine
import LARCmaCS.Merge

/-!
# The receiver and its hand-off to the main algorithm

`ReceiverWorker` of `receiver.h` and `receiver.cpp`: the loop that merges
packets, the slots it runs inside its two `processEvents` calls, and the two
queued signals `activateMA` and `mainAlgFree` that tie it to
`MainAlgWorker::run` in another thread. `step` interleaves the two threads.

Slots the user interface posts (`ChangeMaxPacketFrequencyMod`, `stop`) may be
delivered at any point where slots run, which covers every order of the queue.
Of a run of the algorithm only its phases matter here.
-/

namespace LARCmaCS

-- ---------------------------------------------------------------------------
-- Geometry and wrapper packets
-- ---------------------------------------------------------------------------

structure Vector2f where
  x : Double
  y : Double
  deriving DecidableEq

structure SSLFieldLineSegment where
  name : String
  p1 : Vector2f
  p2 : Vector2f
  thickness : Double
  deriving DecidableEq

structure SSLFieldCicularArc where
  name : String
  center : Vector2f
  radius : Double
  a1 : Double
  a2 : Double
  thickness : Double
  deriving DecidableEq

/-- A default-constructed message has zeros and empty lists. -/
structure SSLGeometryFieldSize where
  fieldLength : Int := 0
  fieldWidth : Int := 0
  goalWidth : Int := 0
  goalDepth : Int := 0
  boundaryWidth : Int := 0
  fieldLines : List SSLFieldLineSegment := []
  fieldArcs : List SSLFieldCicularArc := []
  deriving DecidableEq

structure SSLGeometryData where
  field : SSLGeometryFieldSize
  deriving DecidableEq

structure SSLWrapperPacket where
  detection : Option SSLDetectionFrame
  geometry : Option SSLGeometryData
  deriving DecidableEq

-- ---------------------------------------------------------------------------
-- The receiver
-- ---------------------------------------------------------------------------

/-- Where the receiver's loop stands: at its top, in the `processEvents` call
after a merge, at the statistics, or in the `processEvents` call at the end. -/
inductive ReceiverPhase | receiving | firstEvents | status | lastEvents
  deriving DecidableEq

/-- The receiver's signals; `merged` marks that a detection was merged. -/
inductive ReceiverEvent
  | merged
  | activateMA (packetssl : PacketSSL)
  | activateGUI
  | updateField
  | updateSSLFPS (message : String)
  deriving DecidableEq

structure ReceiverWorker where
  packetssl : PacketSSL
  fieldsize : SSLGeometryFieldSize
  newPacket : Bool
  mainalgisfree : Bool
  maxPacketFrequencyMod : Bool
  shutdownread : Bool
  timerM : Int
  timeCount : Int
  packetsNum : Int
  phase : ReceiverPhase

namespace ReceiverWorker

def start (clock : Int) : ReceiverWorker where
  packetssl := .new
  fieldsize := {}
  newPacket := false
  mainalgisfree := true
  maxPacketFrequencyMod := false
  shutdownread := false
  timerM := clock
  timeCount := 0
  packetsNum := 0
  phase := .receiving

def receive (w : ReceiverWorker) (packet : SSLWrapperPacket) :
    Option (ReceiverWorker × List ReceiverEvent) :=
  match packet.geometry, packet.detection with
  | some geometry, _ =>
    some ({ w with fieldsize := geometry.field, phase := .status }, [.updateField])
  | none, some detection => do
    let packetssl ← mergeDetection w.packetssl detection
    some ({ w with
      timeCount := w.timeCount + 1
      packetsNum := w.packetsNum + 1
      packetssl
      phase := .firstEvents }, [.merged])
  | none, none => some ({ w with phase := .status }, [])

def handOff (w : ReceiverWorker) : ReceiverWorker × List ReceiverEvent :=
  if w.mainalgisfree then
    ({ w with mainalgisfree := false, newPacket := false, phase := .status },
      [.activateMA w.packetssl, .activateGUI])
  else
    ({ w with newPacket := true, phase := .status },
      if w.maxPacketFrequencyMod then [.activateGUI] else [])

def clocksPerSec : Int := 1000

def status (w : ReceiverWorker) (clock clock' : Int) : ReceiverWorker × List ReceiverEvent :=
  if clock - w.timerM > clocksPerSec then
    ({ w with timerM := clock', timeCount := 0, phase := .lastEvents },
      [.updateSSLFPS ("FPS=" ++ toString w.timeCount ++ "; Count=" ++ toString w.packetsNum)])
  else ({ w with phase := .lastEvents }, [])

def mainAlgFree (w : ReceiverWorker) : ReceiverWorker × List ReceiverEvent :=
  if w.newPacket && w.maxPacketFrequencyMod then
    ({ w with mainalgisfree := false, newPacket := false }, [.activateMA w.packetssl])
  else ({ w with mainalgisfree := true }, [])

/-- Slots run inside the two `processEvents` calls only. -/
def InEvents (w : ReceiverWorker) : Prop := w.phase = .firstEvents ∨ w.phase = .lastEvents

instance (w : ReceiverWorker) : Decidable w.InEvents := inferInstanceAs (Decidable (_ ∨ _))

end ReceiverWorker

-- ---------------------------------------------------------------------------
-- Both threads
-- ---------------------------------------------------------------------------

/-- An executing `MainAlgWorker::run`: up to its `processEvents` call, or in it. -/
inductive RunPhase | working | inEvents
  deriving DecidableEq

structure HandOff where
  receiver : ReceiverWorker
  activateMA : List PacketSSL
  runs : List RunPhase
  mainAlgFree : Nat
  shutdowncomp : Bool

inductive HandOffAct
  | receive (packet : Option SSLWrapperPacket)
  | leaveEvents
  | status (clock clock' : Int)
  | mainAlgFree
  | changeMaxPacketFrequencyMod (state : Bool)
  | stopReceiver
  | startRun
  | enterEvents
  | finishRun
  | startMainAlg
  | stopMainAlg

namespace HandOff

/-- The receiver has started; `shutdowncomp` is not initialised before the
algorithm has. -/
def start (clock : Int) (shutdowncomp : Bool) : HandOff where
  receiver := .start clock
  activateMA := []
  runs := []
  mainAlgFree := 0
  shutdowncomp

def packet? : ReceiverEvent → Option PacketSSL
  | .activateMA packetssl => some packetssl
  | _ => none

def post (s : HandOff) (r : ReceiverWorker × List ReceiverEvent) : HandOff × List ReceiverEvent :=
  ({ s with receiver := r.1, activateMA := s.activateMA ++ r.2.filterMap packet? }, r.2)

/-- One step of either thread. A run's last statement queues `mainAlgFree`, so
finishing it is one step; an algorithm that was shut down returns at once. -/
def step (s : HandOff) : HandOffAct → Option (HandOff × List ReceiverEvent)
  | .receive packet? =>
    if s.receiver.phase = .receiving ∧ s.receiver.shutdownread = false then
      match packet? with
      | some packet => (s.receiver.receive packet).map s.post
      | none => some (s, [])
    else none
  | .leaveEvents =>
    match s.receiver.phase with
    | .firstEvents => some (s.post s.receiver.handOff)
    | .lastEvents => some ({ s with receiver := { s.receiver with phase := .receiving } }, [])
    | _ => none
  | .status clock clock' =>
    if s.receiver.phase = .status then some (s.post (s.receiver.status clock clock')) else none
  | .mainAlgFree =>
    if s.receiver.InEvents ∧ 0 < s.mainAlgFree then
      some ({ s with mainAlgFree := s.mainAlgFree - 1 }.post s.receiver.mainAlgFree)
    else none
  | .changeMaxPacketFrequencyMod state =>
    if s.receiver.InEvents then
      some ({ s with receiver := { s.receiver with maxPacketFrequencyMod := state } }, [])
    else none
  | .stopReceiver =>
    if s.receiver.InEvents then
      some ({ s with receiver := { s.receiver with shutdownread := true } }, [])
    else none
  | .startRun =>
    match s.activateMA with
    | [] => none
    | _ :: queued =>
      if s.runs.head? = some .working then none
      else if s.shutdowncomp then some ({ s with activateMA := queued }, [])
      else some ({ s with activateMA := queued, runs := .working :: s.runs }, [])
  | .enterEvents =>
    match s.runs with
    | .working :: outer => some ({ s with runs := .inEvents :: outer }, [])
    | _ => none
  | .finishRun =>
    match s.runs with
    | .inEvents :: outer => some ({ s with runs := outer, mainAlgFree := s.mainAlgFree + 1 }, [])
    | _ => none
  | .startMainAlg =>
    if s.runs.head? = some .working then none else some ({ s with shutdowncomp := false }, [])
  | .stopMainAlg =>
    if s.runs.head? = some .working then none else some ({ s with shutdowncomp := true }, [])

abbrev run : HandOff → List HandOffAct → Option (HandOff × List (List ReceiverEvent)) :=
  Machine.run step

end HandOff

end LARCmaCS
