import LARCmaCS.Connector
import LARCmaCS.Dispatch
import LARCmaCS.Lib.Mailbox
import LARCmaCS.Pause
import LARCmaCS.RemoteControl

/-!
# The way of a command

Two parts of the program command robots. The main algorithm emits frames that
its thread posts to the connector's, where `ConnectorWorker::run` writes them
to the address that the robot has by then; the dialog for the addresses posts
to the same thread. The remote control's signals are written at once by the
main window, to the address in its own text field.
-/

namespace LARCmaCS

/-- A datagram as it is handed to a socket. -/
structure Transmission where
  ip : QString
  port : Nat
  command : QByteArray
  deriving DecidableEq

-- ---------------------------------------------------------------------------
-- The connector's thread
-- ---------------------------------------------------------------------------

/-- The slots of the worker that others have calls posted to. -/
inductive ConnectorCall
  | start
  | stop
  | run (N : Int) (command : QByteArray)
  | addIp (id : Int) (ip : QString)

/-- `numIP` maps a robot without an address to the empty text, as `operator[]`
of a `QMap` does. -/
structure ConnectorThread where
  worker : ConnectorWorker
  udpSocket : Bool
  numIP : Int → QString

namespace ConnectorThread

def new : ConnectorThread := ⟨.new, false, fun _ => []⟩

/-- `"192.168.43.75"` -/
def defaultIp : QString :=
  [0x31, 0x39, 0x32, 0x2E, 0x31, 0x36, 0x38, 0x2E, 0x34, 0x33, 0x2E, 0x37, 0x35]

def init (c : ConnectorThread) : ConnectorThread :=
  { c with udpSocket := true, numIP := Function.update c.numIP 3 defaultIp }

/-- The socket is a null pointer until `init` has been called. -/
def run (c : ConnectorThread) (N : Int) (command : QByteArray) : Option (List Transmission) :=
  if c.udpSocket then some [⟨c.numIP N, 10000, command⟩] else none

def acceptedIp (ip : QString) : QString := if 0x2E ∈ ip then ip else []

def addIp (c : ConnectorThread) (id : Int) (ip : QString) : ConnectorThread :=
  { c with numIP := Function.update c.numIP id (acceptedIp ip) }

/-- `stop` sets a flag that nothing reads. -/
def call (c : ConnectorThread) : ConnectorCall → Option (ConnectorThread × List Transmission)
  | .start => some (c.init, [])
  | .stop => some (c, [])
  | .run N command => (c.run N command).map fun written => (c, written)
  | .addIp id ip => some (c.addIp id ip, [])

end ConnectorThread

-- ---------------------------------------------------------------------------
-- The main window
-- ---------------------------------------------------------------------------

inductive CallingThread
  | mainalg
  | gui
  deriving DecidableEq

instance : Fintype CallingThread where
  elems := {.mainalg, .gui}
  complete thread := by cases thread <;> decide

structure MainWindow where
  mainalg : MainAlgWorker
  remotecontol : RemoteControl
  lineEditRobotIp : QString
  connector : Mailbox CallingThread ConnectorCall ConnectorThread

/-- What a step has a thread call, and what it writes to the worker's socket
and to the window's own. -/
structure Effects where
  made : CallingThread → List ConnectorCall := fun _ => []
  udpSocket : List Transmission := []
  socket : List Transmission := []

namespace MainWindow

inductive Act (Address : Type*)
  | mainalg (a : MainAlgWorker.Act)
  | remoteControl (e : RCEvent)
  | editRobotIp (text : QString)
  | connectorStart
  | connectorStop
  | ipDialogAccepted (lineEditIp : Fin 12 → QString)
  | post (thread : CallingThread)
  | deliver
  | readyRead (pending : List (Datagram Address))

def new (mainalg : MainAlgWorker) (lineEditRobotIp : QString) : MainWindow :=
  ⟨mainalg, .new, lineEditRobotIp, .new .new⟩

/-- The slot for `RC_control`, up to its unconditional `return`. The test of the
socket compares an enumerator with itself. -/
def remcontrolsender (ip : QString) : RCSignal → List Transmission
  | .RC_control l r k b kickUp =>
    let data : CommandData :=
      if b ≠ -1 then
        { speedX := .ofInt 32 l
          speedY := .ofInt 32 r
          speedR := .ofInt 32 k
          speedDribbler := 0
          dribblerEnable := 0
          kickerVoltageLevel := 4
          kickerChargeEnable := 1
          kickUp := if kickUp then 1 else 0
          kickForward := 0 }
      else
        { speedX := .ofInt 32 l
          speedY := .ofInt 32 r
          speedR := .ofInt 32 k
          speedDribbler := 0
          dribblerEnable := 0
          kickerVoltageLevel := 0
          kickerChargeEnable := 0
          kickUp := 0
          kickForward := 0 }
    [⟨ip, 10000, serializeCommand data⟩]
  | .sendCommand .. => []

def ipDialogCalls (lineEditIp : Fin 12 → QString) : List ConnectorCall :=
  List.ofFn fun i => .addIp (i + 1) (lineEditIp i)

/-- `sendToConnector` is connected to `run`. -/
def connectorCalls (events : List MainAlgEvent) : List ConnectorCall :=
  (events.filterMap MainAlgWorker.connector?).map fun (N, command) => .run N command

def calls (s : MainWindow) (thread : CallingThread) (calls : List ConnectorCall) :
    Option (MainWindow × Effects) :=
  (s.connector.make thread calls).map fun connector =>
    ({ s with connector }, { made := fun t => if t = thread then calls else [] })

variable {Address : Type*} (qt : QtText Address)

def step (s : MainWindow) : Act Address → Option (MainWindow × Effects)
  | .mainalg a => do
    let (mainalg, events) ← s.mainalg.step a
    { s with mainalg }.calls .mainalg (connectorCalls events)
  | .remoteControl e =>
    let (remotecontol, signals) := s.remotecontol.handle e
    some ({ s with remotecontol },
      { socket := signals.flatMap (remcontrolsender s.lineEditRobotIp) })
  | .editRobotIp text => some ({ s with lineEditRobotIp := text }, {})
  | .connectorStart => s.calls .gui [.start]
  | .connectorStop => s.calls .gui [.stop]
  | .ipDialogAccepted lineEditIp => s.calls .gui (ipDialogCalls lineEditIp)
  | .post thread => (s.connector.post thread).map fun connector => ({ s with connector }, {})
  | .deliver => (s.connector.deliver ConnectorThread.call).map fun (connector, written) =>
    ({ s with connector }, { udpSocket := written })
  | .readyRead pending => do
    let (worker, _) ← s.connector.server.worker.udpProcessPendingDatagrams qt pending
    some ({ s with connector.server.worker := worker }, {})

-- ---------------------------------------------------------------------------
-- What the datagrams hold
-- ---------------------------------------------------------------------------

structure ValidFrame (command : QByteArray) : Prop where
  length : command.length = 32
  sync : (Frame.decode command).sync = [0xAA, 0xAA, 0xAA, 0xAA]
  checksum : ∃ h : 28 ≤ (command.take 28).length,
    command.drop 28 = LittleEndian.encode 4 (crc32 (command.take 28) 28 h)

theorem validFrame_generateByteArray (msg : Message) : ValidFrame msg.generateByteArray where
  length := length_generateByteArray msg
  sync := by rw [decode_generateByteArray]
  checksum := by
    obtain ⟨h, htrailer⟩ := exists_trailer msg
    exact ⟨h, by rw [htrailer, calculateCRC_eq_crc32]⟩

def messageOf (data : CommandData) : Message where
  mSpeedX := data.speedX
  mSpeedY := data.speedY
  mSpeedR := data.speedR
  mSpeedDribbler := data.speedDribbler
  mDribblerEnable := data.dribblerEnable.setWidth 32
  mKickerVoltageLevel := data.kickerVoltageLevel
  mKickerChargeEnable := data.kickerChargeEnable.setWidth 32
  mKickUp := data.kickUp.setWidth 32
  mKickForward := data.kickForward.setWidth 32

theorem serializeCommand_eq (data : CommandData) :
    serializeCommand data = (messageOf data).generateByteArray := by
  have hbyte (b : BitVec 8) : (b.setWidth 32).setWidth 8 = b := by simp
  rw [generateByteArray_eq_serializeCommand]
  simp [Message.toCommandData, messageOf, hbyte]

structure FromMainAlg (frame : Frame) : Prop where
  speedDribbler : frame.speedDribbler = 0
  dribblerEnable : frame.dribblerEnable = 0
  kickerVoltageLevel : frame.kickerVoltageLevel = 12
  kickerChargeEnable : frame.kickerChargeEnable = 1
  kickUp : frame.kickUp = 0

structure FromRemoteControl (frame : Frame) : Prop where
  speedDribbler : frame.speedDribbler = 0
  dribblerEnable : frame.dribblerEnable = 0
  kickerVoltageLevel : frame.kickerVoltageLevel = 4
  kickerChargeEnable : frame.kickerChargeEnable = 1
  kickForward : frame.kickForward = 0

/-- A command that the main algorithm may send to robot `N`. -/
structure Commands (N : Int) (command : QByteArray) : Prop where
  robot : 1 ≤ N ∧ N ≤ 12
  valid : ValidFrame command
  content : FromMainAlg (Frame.decode command)

theorem commands_rowMessage {N : Int} (hN : 1 ≤ N ∧ N ≤ 12) (isPause : Bool) (newmess : Newmess) :
    Commands N (MainAlgWorker.rowMessage isPause newmess).generateByteArray where
  robot := hN
  valid := validFrame_generateByteArray _
  content := by
    rw [decode_generateByteArray]
    cases isPause <;> constructor <;> rfl

theorem commands_pauseMessage {N : Int} (hN : 1 ≤ N ∧ N ≤ 12) :
    Commands N MainAlgWorker.pauseMessage.generateByteArray where
  robot := hN
  valid := validFrame_generateByteArray _
  content := by
    rw [decode_generateByteArray]
    constructor <;> rfl

open MainAlgWorker in
theorem commands_step {w w' : MainAlgWorker} {a : MainAlgWorker.Act} {events : List MainAlgEvent}
    (h : w.step a = some (w', events)) {N : Int} {command : QByteArray}
    (he : .sendToConnector N command ∈ events) : Commands N command := by
  cases a with
  | run call =>
    rcases run_cases h with ⟨-, -, rfl⟩ | ⟨-, commands, polled, hrows, hstatus, rfl⟩
    · cases he
    · rcases List.mem_append.mp he with hcommand | hrest
      · rcases List.mem_append.mp hcommand with hmatlab | hrow
        · simp [callMatlab] at hmatlab
        · obtain ⟨newmess, -, hmem⟩ := hrows _ (by simpa using hrow)
          obtain ⟨-, hcommand⟩ := rowCommand_of_mem hmem
          cases hcommand with
          | connector hN hN' => exact commands_rowMessage ⟨hN, hN'.trans (by decide)⟩ _ _
      · rcases List.mem_append.mp hrest with hpolled | hfree
        · rcases List.mem_append.mp hpolled with hpolled | hpause
          · rcases status_cases hstatus with ⟨-, rfl⟩ | ⟨-, text, rfl⟩ <;> simp at hpolled
          · split at hpause
            · obtain ⟨i, hi, hevent⟩ := mem_pauseLoop.mp hpause
              simp only [MainAlgEvent.sendToConnector.injEq, reduceCtorEq, or_false] at hevent
              obtain ⟨rfl, rfl⟩ := hevent
              exact commands_pauseMessage (by omega)
            · cases hpause
        · simp at hfree
  | _ =>
    cases h
    cases he

/-- What the remote control emits: nothing, the stop when its session ends, or
the velocities of a tick. -/
theorem signals_cases (rc : RemoteControl) (event : RCEvent) :
    ((rc.handle event).2 = [] ∧
        ((rc.handle event).1.timerActive = false → rc.timerActive = false)) ∨
      ((rc.handle event).2 = [.RC_control 0 0 0 0 false] ∧ rc.timerActive = true ∧
        (rc.handle event).1.timerActive = false) ∨
      ∃ x y r kickUp speed, (rc.handle event).2 =
          [.RC_control x y r 0 kickUp, .sendCommand x y r speed 0 1] ∧
        (rc.handle event).1.timerActive = true := by
  have hstop : (rc.TimerStop.2 = [] ∧ (rc.TimerStop.1.timerActive = false → rc.timerActive = false)) ∨
      (rc.TimerStop.2 = [.RC_control 0 0 0 0 false] ∧ rc.timerActive = true ∧
        rc.TimerStop.1.timerActive = false) := by
    cases hactive : rc.timerActive <;> simp [RemoteControl.signals_TimerStop, hactive]
  cases event with
  | keyPress nkey =>
    rw [RemoteControl.handle, RemoteControl.signals_keyPressEvent,
      RemoteControl.timerActive_keyPressEvent]
    by_cases hesc : nkey = RemoteControl.QT_KEY_ESCAPE_NATIVE <;>
      cases hactive : rc.timerActive <;> simp [hesc]
  | keyRelease nkey => exact .inl (by simp [RemoteControl.handle, RemoteControl.keyReleaseEvent])
  | timeout =>
    cases hactive : rc.timerActive with
    | false => exact .inl (by simp [RemoteControl.handle, hactive])
    | true =>
      simp only [RemoteControl.handle, hactive, if_true, RemoteControl.timerActive_RC_send]
      unfold RemoteControl.RC_send
      split
      · simp
      · split
        · simp
        · exact .inr (.inr ⟨_, _, _, _, _, rfl, trivial⟩)
  | close => exact hstop.imp_right .inl
  | timerStart => exact .inl (by simp [RemoteControl.handle])

theorem beep_handle {rc : RemoteControl} {event : RCEvent} {l r k b : Int} {kickUp : Bool}
    (h : .RC_control l r k b kickUp ∈ (rc.handle event).2) : b = 0 := by
  obtain ⟨hnone, -⟩ | ⟨hstop, -, -⟩ | ⟨x, y, r, kickUp, speed, htick, -⟩ := signals_cases rc event
  · simp [hnone] at h
  · simp [hstop] at h
    exact h.2.2.2.1
  · simp [htick] at h
    exact h.2.2.2.1

/-- The branch of the slot for `b = -1`, which would leave the kicker without
charge, is never taken. -/
theorem fromRemoteControl_handle {rc : RemoteControl} {event : RCEvent} {signal : RCSignal}
    (h : signal ∈ (rc.handle event).2) {ip : QString} {d : Transmission}
    (hd : d ∈ remcontrolsender ip signal) :
    d.port = 10000 ∧ ValidFrame d.command ∧ FromRemoteControl (Frame.decode d.command) := by
  cases signal with
  | RC_control l r k b kickUp =>
    obtain rfl := beep_handle h
    obtain rfl := List.mem_singleton.mp hd
    simp only [serializeCommand_eq, decode_generateByteArray]
    exact ⟨trivial, validFrame_generateByteArray _, rfl, rfl, rfl, rfl, rfl⟩
  | sendCommand => cases hd

def Permitted : ConnectorCall → Prop
  | .run N command => Commands N command
  | _ => True

theorem permitted_connectorCalls {w w' : MainAlgWorker} {a : MainAlgWorker.Act}
    {events : List MainAlgEvent} (h : w.step a = some (w', events)) :
    ∀ call ∈ connectorCalls events, Permitted call := by
  intro call hcall
  obtain ⟨⟨N, command⟩, hmem, rfl⟩ := List.mem_map.mp hcall
  obtain ⟨event, hevent, heq⟩ := List.mem_filterMap.mp hmem
  cases event with
  | sendToConnector =>
    cases heq
    exact commands_step h hevent
  | _ => cases heq

-- ---------------------------------------------------------------------------
-- What a step does
-- ---------------------------------------------------------------------------

def remoteEvent? : Act Address → Option RCEvent
  | .remoteControl event => some event
  | _ => none

inductive Step (s : MainWindow) : Act Address → MainWindow → Effects → Prop
  | calls {a} (mainalg : MainAlgWorker) {thread calls connector} (ha : remoteEvent? a = none)
      (hmake : s.connector.make thread calls = some connector)
      (hpermitted : ∀ call ∈ calls, Permitted call) :
      Step s a { s with mainalg, connector } { made := fun t => if t = thread then calls else [] }
  | remoteControl (event : RCEvent) :
      Step s (.remoteControl event) { s with remotecontol := (s.remotecontol.handle event).1 }
        { socket := (s.remotecontol.handle event).2.flatMap (remcontrolsender s.lineEditRobotIp) }
  | editRobotIp (text : QString) : Step s (.editRobotIp text) { s with lineEditRobotIp := text } {}
  | post {thread connector} (hpost : s.connector.post thread = some connector) :
      Step s (.post thread) { s with connector } {}
  | deliver {connector written}
      (hdeliver : s.connector.deliver ConnectorThread.call = some (connector, written)) :
      Step s .deliver { s with connector } { udpSocket := written }
  | readyRead (pending : List (Datagram Address)) (worker : ConnectorWorker) :
      Step s (.readyRead pending) { s with connector.server.worker := worker } {}

variable {qt} {s s' : MainWindow} {a : Act Address} {e : Effects} {effects : List Effects}
  {acts : List (Act Address)}

theorem Step.of_calls (mainalg : MainAlgWorker) {thread : CallingThread}
    {calls : List ConnectorCall} (ha : remoteEvent? a = none)
    (hpermitted : ∀ call ∈ calls, Permitted call)
    (h : { s with mainalg }.calls thread calls = some (s', e)) : Step s a s' e := by
  obtain ⟨connector, hmake, heq⟩ := Option.map_eq_some_iff.mp h
  cases heq
  exact .calls mainalg ha hmake hpermitted

theorem Step.of_step (h : step qt s a = some (s', e)) : Step s a s' e := by
  cases a with
  | mainalg a =>
    obtain ⟨⟨w, events⟩, hw, hcalls⟩ := Option.bind_eq_some_iff.mp h
    exact .of_calls w rfl (permitted_connectorCalls hw) hcalls
  | remoteControl event =>
    cases h
    exact .remoteControl event
  | editRobotIp text =>
    cases h
    exact .editRobotIp text
  | connectorStart => exact .of_calls s.mainalg rfl (by simp [Permitted]) h
  | connectorStop => exact .of_calls s.mainalg rfl (by simp [Permitted]) h
  | ipDialogAccepted lineEditIp =>
    refine .of_calls s.mainalg rfl (fun call hcall => ?_) h
    obtain ⟨i, rfl⟩ := List.mem_ofFn.mp hcall
    trivial
  | post thread =>
    obtain ⟨connector, hpost, heq⟩ := Option.map_eq_some_iff.mp h
    cases heq
    exact .post hpost
  | deliver =>
    obtain ⟨⟨connector, written⟩, hdeliver, heq⟩ := Option.map_eq_some_iff.mp h
    cases heq
    exact .deliver hdeliver
  | readyRead pending =>
    obtain ⟨⟨worker, added⟩, -, heq⟩ := Option.bind_eq_some_iff.mp h
    cases heq
    exact .readyRead pending worker

-- ---------------------------------------------------------------------------
-- In order, and to the address of the moment
-- ---------------------------------------------------------------------------

def configures (N : Int) : ConnectorCall → Option QString
  | .start => if N = 3 then some ConnectorThread.defaultIp else none
  | .addIp id ip => if N = id then some (ConnectorThread.acceptedIp ip) else none
  | _ => none

def addressIn (calls : List ConnectorCall) (N : Int) : QString :=
  (Log.latest (configures N) calls).getD []

/-- What is to be written for the calls that follow on the earlier ones. -/
def transmissions (earlier : List ConnectorCall) : List ConnectorCall → List Transmission
  | [] => []
  | .run N command :: calls =>
    ⟨addressIn earlier N, 10000, command⟩ :: transmissions (earlier ++ [.run N command]) calls
  | call :: calls => transmissions (earlier ++ [call]) calls

/-- The calls have been handled, and what they ask for has been written. -/
structure Served (calls : List ConnectorCall) (c : ConnectorThread) (written : List Transmission) :
    Prop where
  numIP : c.numIP = addressIn calls
  written : written = transmissions [] calls

theorem addressIn_append (calls : List ConnectorCall) (call : ConnectorCall) (N : Int) :
    addressIn (calls ++ [call]) N = (configures N call).getD (addressIn calls N) := by
  rw [addressIn, Log.latest_append]
  cases h : configures N call <;> simp [h, addressIn]

theorem transmissions_append (earlier calls more : List ConnectorCall) :
    transmissions earlier (calls ++ more) =
      transmissions earlier calls ++ transmissions (earlier ++ calls) more := by
  induction calls generalizing earlier with
  | nil => simp [transmissions]
  | cons call calls ih => cases call <;> simp [transmissions, ih]

theorem numIP_call {c c' : ConnectorThread} {call : ConnectorCall} {written : List Transmission}
    (h : c.call call = some (c', written)) (N : Int) :
    c'.numIP N = (configures N call).getD (c.numIP N) := by
  cases call with
  | start =>
    cases h
    by_cases hN : N = 3 <;> simp [ConnectorThread.init, configures, hN]
  | stop =>
    cases h
    rfl
  | run N' command =>
    obtain ⟨written, -, heq⟩ := Option.map_eq_some_iff.mp h
    cases heq
    rfl
  | addIp id ip =>
    cases h
    by_cases hN : N = id <;> simp [ConnectorThread.addIp, configures, hN]

theorem Served.call {calls : List ConnectorCall} {c c' : ConnectorThread} {call : ConnectorCall}
    {written out : List Transmission} (h : Served calls c written)
    (hcall : c.call call = some (c', out)) : Served (calls ++ [call]) c' (written ++ out) where
  numIP := by
    funext N
    rw [numIP_call hcall, addressIn_append, h.numIP]
  written := by
    rw [transmissions_append, h.written, List.nil_append]
    congr 1
    cases call with
    | run N command =>
      obtain ⟨out, hrun, heq⟩ := Option.map_eq_some_iff.mp hcall
      cases heq
      unfold ConnectorThread.run at hrun
      split at hrun
      · cases hrun
        simp [transmissions, h.numIP]
      · cases hrun
    | _ =>
      cases hcall
      rfl

def made (effects : List Effects) (thread : CallingThread) : List ConnectorCall :=
  effects.flatMap (·.made thread)

def written (effects : List Effects) : List Transmission := effects.flatMap (·.udpSocket)

@[simp] theorem made_append :
    made (effects ++ [e]) = fun thread => made effects thread ++ e.made thread := by
  funext thread
  simp [made]

@[simp] theorem written_append : written (effects ++ [e]) = written effects ++ e.udpSocket := by
  simp [written]

/-- The invariant: the calls of each thread are under way in order, and those
that have been handled were served. -/
def UnderWay (s : MainWindow) (effects : List Effects) : Prop :=
  ∃ handled, Mailbox.Delivered Served (made effects) handled (written effects) s.connector

theorem UnderWay.step (h : UnderWay s effects) (hstep : Step s a s' e) :
    UnderWay s' (effects ++ [e]) := by
  obtain ⟨handled, hdelivered⟩ := h
  cases hstep with
  | calls mainalg ha hmake hpermitted => exact ⟨handled, by simpa using hdelivered.make hmake⟩
  | remoteControl event => exact ⟨handled, by simpa using hdelivered⟩
  | editRobotIp text => exact ⟨handled, by simpa using hdelivered⟩
  | post hpost => exact ⟨handled, by simpa using hdelivered.post hpost⟩
  | deliver hdeliver =>
    obtain ⟨p, hnext⟩ := hdelivered.deliver (fun _ _ _ _ _ _ hserved => hserved.call) hdeliver
    exact ⟨handled ++ [p], by simpa using hnext⟩
  | readyRead pending worker =>
    have hown := hdelivered.own (s := { s.connector.server with worker })
      ⟨hdelivered.served.numIP, hdelivered.served.written⟩
    exact ⟨handled, by simpa using hown⟩

theorem underWay_run {mainalg : MainAlgWorker} {text : QString}
    (hrun : Machine.run (MainWindow.step qt) (new mainalg text) acts = some (s, effects)) :
    UnderWay s effects := by
  refine Machine.run_invariant ?_ ?_ hrun
  · exact ⟨[], Mailbox.delivered_new ⟨rfl, rfl⟩⟩
  · intro t effects a t' e h hstep
    exact h.step (.of_step hstep)

/-- In whatever order the threads take their steps: the calls of each have been
handled in the order in which it made them, up to those still under way, and
each command went to the address that its robot had been given last. -/
theorem written_in_order {mainalg : MainAlgWorker} {text : QString}
    (hrun : Machine.run (step qt) (new mainalg text) acts = some (s, effects)) :
    ∃ handled,
      (∀ thread, made effects thread =
        (handled ++ s.connector.posted).filterMap (Mailbox.callOf thread) ++
          s.connector.outbox thread) ∧
      written effects = transmissions [] (handled.map Prod.snd) := by
  obtain ⟨handled, hdelivered⟩ := underWay_run hrun
  exact ⟨handled, hdelivered.inOrder, hdelivered.served.written⟩

def pausedWorker : MainAlgWorker := .new 0 0 true ⟨"main", 0, 6⟩ false

def quietCall : Call where
  packetssl := .new
  clock := ⟨0, 0, 0, 0⟩
  rules := none
  stack _ _ := 0
  status := ⟨none, none⟩

def pauseUnderWay : List (Act QString) :=
  [.connectorStart, .post .gui, .deliver, .mainalg (.run quietCall), .post .mainalg,
    .post .mainalg, .deliver]

theorem run_pauseUnderWay :
    ∃ s effects, Machine.run (step ConnectorWorker.asciiText) (new pausedWorker []) pauseUnderWay =
        some (s, effects) ∧
      (written effects).length = 1 ∧ s.connector.server.udpSocket = true :=
  ⟨_, _, rfl, rfl, rfl⟩

theorem written_in_order_pauseUnderWay :
    ∃ s effects, Machine.run (step ConnectorWorker.asciiText) (new pausedWorker []) pauseUnderWay =
        some (s, effects) ∧
      ∃ handled,
        (∀ thread, made effects thread =
          (handled ++ s.connector.posted).filterMap (Mailbox.callOf thread) ++
            s.connector.outbox thread) ∧
        written effects = transmissions [] (handled.map Prod.snd) := by
  obtain ⟨s, effects, hrun, -⟩ := run_pauseUnderWay
  exact ⟨s, effects, hrun, written_in_order hrun⟩

-- ---------------------------------------------------------------------------
-- Nothing is lost
-- ---------------------------------------------------------------------------

def ofTurn : Mailbox.Turn CallingThread → Act Address
  | .post thread => .post thread
  | .deliver => .deliver

theorem step_ofTurn (s : MainWindow) (m : Mailbox CallingThread ConnectorCall ConnectorThread)
    (turn : Mailbox.Turn CallingThread) :
    step qt { s with connector := m } (ofTurn turn) =
      (m.turn ConnectorThread.call turn).map fun (m', written) =>
        ({ s with connector := m' }, { udpSocket := written }) := by
  cases turn <;> simp [ofTurn, step, Mailbox.turn, Function.comp_def]

theorem exists_call {c : ConnectorThread} (call : ConnectorCall) (h : c.udpSocket = true) :
    ∃ c' written, c.call call = some (c', written) ∧ c'.udpSocket = true := by
  cases call with
  | start => exact ⟨_, _, rfl, rfl⟩
  | stop => exact ⟨_, _, rfl, h⟩
  | run N command => exact ⟨c, _, by rw [ConnectorThread.call, ConnectorThread.run, if_pos h]; rfl, h⟩
  | addIp id ip => exact ⟨_, _, rfl, h⟩

/-- Once the connector has been started, whatever is under way can be handled,
and then every call that was made has been handled, each once. -/
theorem all_written {mainalg : MainAlgWorker} {text : QString}
    (hrun : Machine.run (step qt) (new mainalg text) acts = some (s, effects))
    (hsocket : s.connector.server.udpSocket = true) :
    ∃ (turns : List (Mailbox.Turn CallingThread)) (s' : MainWindow) (effects' : List Effects)
      (handled : List (CallingThread × ConnectorCall)),
      Machine.run (step qt) (new mainalg text) (acts ++ turns.map ofTurn) =
        some (s', effects ++ effects') ∧
      (∀ thread, handled.filterMap (Mailbox.callOf thread) = made effects thread) ∧
      written (effects ++ effects') = transmissions [] (handled.map Prod.snd) := by
  obtain ⟨turns, m, outs, hturns, hdrained, -⟩ :=
    Mailbox.drains (P := fun c : ConnectorThread => c.udpSocket = true)
      (fun _ call => exists_call call) hsocket
  have hlift : Machine.run (step qt) s (turns.map ofTurn) =
      some ({ s with connector := m }, outs.map fun written => ({ udpSocket := written } : Effects)) :=
    Machine.run_lift (fun m => { s with connector := m }) ofTurn
      (fun written => ({ udpSocket := written } : Effects)) (step_ofTurn s) hturns
  have hall := Machine.run_append.mpr ⟨s, effects, _, hrun, hlift, rfl⟩
  obtain ⟨handled, hinOrder, hwritten⟩ := written_in_order hall
  refine ⟨turns, _, _, handled, hall, fun thread => ?_, hwritten⟩
  have hthread := hinOrder thread
  rw [hdrained.posted, hdrained.outbox, List.append_nil, List.append_nil] at hthread
  rw [← hthread]
  simp [made, List.flatMap_append, List.flatMap_map]

theorem all_written_pauseUnderWay :
    ∃ s effects, Machine.run (step ConnectorWorker.asciiText) (new pausedWorker []) pauseUnderWay =
        some (s, effects) ∧
      ∃ (turns : List (Mailbox.Turn CallingThread)) (s' : MainWindow) (effects' : List Effects)
        (handled : List (CallingThread × ConnectorCall)),
        Machine.run (step ConnectorWorker.asciiText) (new pausedWorker [])
          (pauseUnderWay ++ turns.map ofTurn) = some (s', effects ++ effects') ∧
        (∀ thread, handled.filterMap (Mailbox.callOf thread) = made effects thread) ∧
        written (effects ++ effects') = transmissions [] (handled.map Prod.snd) := by
  obtain ⟨s, effects, hrun, -, hsocket⟩ := run_pauseUnderWay
  exact ⟨s, effects, hrun, all_written hrun hsocket⟩

-- ---------------------------------------------------------------------------
-- Every datagram
-- ---------------------------------------------------------------------------

theorem mem_transmissions {earlier calls : List ConnectorCall} {d : Transmission}
    (h : d ∈ transmissions earlier calls) :
    ∃ earlier' N command, .run N command ∈ calls ∧ d = ⟨addressIn earlier' N, 10000, command⟩ := by
  induction calls generalizing earlier with
  | nil => cases h
  | cons call calls ih =>
    have hlater (h : d ∈ transmissions (earlier ++ [call]) calls) :
        ∃ earlier' N command, .run N command ∈ call :: calls ∧
          d = ⟨addressIn earlier' N, 10000, command⟩ := by
      obtain ⟨earlier', N, command, hmem, heq⟩ := ih h
      exact ⟨earlier', N, command, List.mem_cons_of_mem _ hmem, heq⟩
    cases call with
    | run N command =>
      rcases List.mem_cons.mp h with rfl | h
      · exact ⟨earlier, N, command, List.mem_cons_self, rfl⟩
      · exact hlater h
    | _ => exact hlater h

theorem acceptedIp_cases (ip : QString) :
    ConnectorThread.acceptedIp ip = [] ∨ 0x2E ∈ ConnectorThread.acceptedIp ip := by
  unfold ConnectorThread.acceptedIp
  split
  · rename_i hdot
    exact .inr hdot
  · exact .inl rfl

theorem addressIn_cases (calls : List ConnectorCall) (N : Int) :
    addressIn calls N = [] ∨ 0x2E ∈ addressIn calls N := by
  unfold addressIn
  cases h : Log.latest (configures N) calls with
  | none => exact .inl rfl
  | some ip =>
    obtain ⟨call, -, hcall⟩ := Log.exists_of_latest h
    cases call with
    | start =>
      simp only [configures] at hcall
      split at hcall <;> cases hcall
      exact .inr (by decide)
    | addIp id text =>
      simp only [configures] at hcall
      split at hcall <;> cases hcall
      exact acceptedIp_cases text
    | _ => cases hcall

def remoteWritten (effects : List Effects) : List Transmission := effects.flatMap (·.socket)

@[simp] theorem remoteWritten_append :
    remoteWritten (effects ++ [e]) = remoteWritten effects ++ e.socket := by
  simp [remoteWritten]

theorem permitted_run {mainalg : MainAlgWorker} {text : QString}
    (hrun : Machine.run (MainWindow.step qt) (new mainalg text) acts = some (s, effects))
    (thread : CallingThread) : ∀ call ∈ made effects thread, Permitted call := by
  refine Machine.run_invariant (I := fun _ effects => ∀ call ∈ made effects thread, Permitted call)
    (by simp [made]) ?_ hrun
  intro t effects a t' e h hstep call hcall
  rw [made_append] at hcall
  rcases List.mem_append.mp hcall with hcall | hcall
  · exact h call hcall
  · cases Step.of_step hstep with
    | @calls _ _ caller calls _ _ _ hpermitted =>
      by_cases hthread : thread = caller
      · exact hpermitted call (by simpa [hthread] using hcall)
      · simp [hthread] at hcall
    | _ => simp at hcall

theorem fromRemoteControl_run {mainalg : MainAlgWorker} {text : QString}
    (hrun : Machine.run (MainWindow.step qt) (new mainalg text) acts = some (s, effects)) :
    ∀ d ∈ remoteWritten effects,
      d.port = 10000 ∧ ValidFrame d.command ∧ FromRemoteControl (Frame.decode d.command) := by
  refine Machine.run_invariant (I := fun _ effects => ∀ d ∈ remoteWritten effects,
    d.port = 10000 ∧ ValidFrame d.command ∧ FromRemoteControl (Frame.decode d.command))
    (by simp [remoteWritten]) ?_ hrun
  intro t effects a t' e h hstep d hd
  rw [remoteWritten_append] at hd
  rcases List.mem_append.mp hd with hd | hd
  · exact h d hd
  · cases Step.of_step hstep with
    | remoteControl event =>
      obtain ⟨signal, hsignal, hd⟩ := List.mem_flatMap.mp hd
      exact fromRemoteControl_handle hsignal hd
    | _ => cases hd

/-- Every datagram that either socket is handed is a frame of 32 bytes with the
sync bytes and the right checksum. The worker writes to the empty address or to
one with a dot; its frames never kick up, those of the remote control never
forward, none turns the dribbler on, and each has the kicker charged. -/
theorem datagrams_valid {mainalg : MainAlgWorker} {text : QString}
    (hrun : Machine.run (MainWindow.step qt) (new mainalg text) acts = some (s, effects)) :
    (∀ d ∈ written effects, d.port = 10000 ∧ (d.ip = [] ∨ 0x2E ∈ d.ip) ∧ ValidFrame d.command ∧
      FromMainAlg (Frame.decode d.command)) ∧
    ∀ d ∈ remoteWritten effects, d.port = 10000 ∧ ValidFrame d.command ∧
      FromRemoteControl (Frame.decode d.command) := by
  refine ⟨fun d hd => ?_, fromRemoteControl_run hrun⟩
  obtain ⟨handled, hdelivered⟩ := underWay_run hrun
  rw [hdelivered.served.written] at hd
  obtain ⟨earlier, N, command, hmem, rfl⟩ := mem_transmissions hd
  obtain ⟨⟨thread, call⟩, hp, rfl⟩ := List.mem_map.mp hmem
  have hmade : .run N command ∈ made effects thread := by
    rw [hdelivered.inOrder]
    refine List.mem_append_left _ (List.mem_filterMap.mpr ⟨_, List.mem_append_left _ hp, ?_⟩)
    simp [Mailbox.callOf]
  have hcommand : Commands N command := permitted_run hrun thread _ hmade
  exact ⟨rfl, addressIn_cases _ _, hcommand.valid, hcommand.content⟩

def pauseAndDrive : List (Act QString) :=
  pauseUnderWay ++ [.editRobotIp [0x31], .remoteControl .timerStart,
    .remoteControl (.keyPress 'W'.toNat), .remoteControl .timeout]

theorem datagrams_valid_pauseAndDrive :
    ∃ s effects, Machine.run (step ConnectorWorker.asciiText) (new pausedWorker []) pauseAndDrive =
        some (s, effects) ∧
      (written effects).length = 1 ∧ (remoteWritten effects).length = 1 ∧
      (∀ d ∈ written effects, d.port = 10000 ∧ (d.ip = [] ∨ 0x2E ∈ d.ip) ∧ ValidFrame d.command ∧
        FromMainAlg (Frame.decode d.command)) ∧
      ∀ d ∈ remoteWritten effects, d.port = 10000 ∧ ValidFrame d.command ∧
        FromRemoteControl (Frame.decode d.command) := by
  obtain ⟨s, effects, hrun, hwritten, hremote⟩ : ∃ s effects,
      Machine.run (step ConnectorWorker.asciiText) (new pausedWorker []) pauseAndDrive =
        some (s, effects) ∧
      (written effects).length = 1 ∧ (remoteWritten effects).length = 1 := ⟨_, _, rfl, rfl, rfl⟩
  exact ⟨s, effects, hrun, hwritten, hremote, datagrams_valid hrun⟩

-- ---------------------------------------------------------------------------
-- At the end of a session
-- ---------------------------------------------------------------------------

def commandTo (ip : QString) (d : Transmission) : Option QByteArray :=
  if d.ip = ip then some d.command else none

structure Halts (command : QByteArray) : Prop where
  speedX : (Frame.decode command).speedX = 0
  speedY : (Frame.decode command).speedY = 0
  speedR : (Frame.decode command).speedR = 0
  kickUp : (Frame.decode command).kickUp = 0
  kickForward : (Frame.decode command).kickForward = 0

def lastCommand (effects : List Effects) (ip : QString) : Option QByteArray :=
  Log.latest (commandTo ip) (remoteWritten effects)

/-- The address is edited only while no session is open. -/
def EditsBetweenSessions (acts : List (Act Address)) : Prop :=
  ∀ earlier text later, acts = earlier ++ .editRobotIp text :: later →
    ¬RemoteControl.InSession (earlier.filterMap remoteEvent?)

/-- Except for the robot that is being driven, whatever the remote control has
commanded was told to halt in the end. -/
def HaltsElsewhere (s : MainWindow) (effects : List Effects) : Prop :=
  ∀ ip command, (s.remotecontol.timerActive = true → ip ≠ s.lineEditRobotIp) →
    lastCommand effects ip = some command → Halts command

theorem lastCommand_append_of_silent (h : ∀ d ∈ e.socket, commandTo ip d = none) :
    lastCommand (effects ++ [e]) ip = lastCommand effects ip := by
  rw [lastCommand, remoteWritten_append, Log.latest_append_of_silent h, lastCommand]

theorem halts_stop (ip : QString) :
    ∃ command, remcontrolsender ip (.RC_control 0 0 0 0 false) = [⟨ip, 10000, command⟩] ∧
      Halts command := by
  refine ⟨_, rfl, ?_⟩
  constructor <;> rw [serializeCommand_eq, decode_generateByteArray] <;> rfl

theorem HaltsElsewhere.remoteControl (h : HaltsElsewhere s effects) (event : RCEvent) :
    HaltsElsewhere { s with remotecontol := (s.remotecontol.handle event).1 }
      (effects ++
        [{ socket := (s.remotecontol.handle event).2.flatMap (remcontrolsender s.lineEditRobotIp) }])
    := by
  intro ip command hip hlast
  have hother (hne : ip ≠ s.lineEditRobotIp) : Halts command := by
    refine h ip command (fun _ => hne) ?_
    rwa [lastCommand_append_of_silent] at hlast
    intro d hd
    obtain ⟨signal, -, hd⟩ := List.mem_flatMap.mp hd
    cases signal with
    | RC_control l r k b kickUp =>
      obtain rfl := List.mem_singleton.mp hd
      simp [commandTo, Ne.symm hne]
    | sendCommand => cases hd
  obtain ⟨hnone, hactive⟩ | ⟨hstop, hactive, hclosed⟩ | ⟨x, y, r, kickUp, speed, -, hactive⟩ :=
    signals_cases s.remotecontol event
  · refine h ip command (fun hbefore => hip ?_) (by simpa [hnone, lastCommand] using hlast)
    cases hafter : (s.remotecontol.handle event).1.timerActive with
    | false => simp [hactive hafter] at hbefore
    | true => rfl
  · by_cases hne : ip = s.lineEditRobotIp
    · subst hne
      obtain ⟨stop, hwrites, hhalts⟩ := halts_stop s.lineEditRobotIp
      have hlatest : Log.latest (commandTo s.lineEditRobotIp)
          [⟨s.lineEditRobotIp, 10000, stop⟩] = some stop := by
        simp [commandTo]
      rw [lastCommand, remoteWritten_append, hstop, List.flatMap_singleton, hwrites,
        Log.latest_append, hlatest, Option.some_or] at hlast
      obtain rfl := Option.some.inj hlast
      exact hhalts
    · exact hother hne
  · exact hother (hip hactive)

theorem HaltsElsewhere.step (h : HaltsElsewhere s effects) (hstep : Step s a s' e)
    (hedit : ∀ text, a = .editRobotIp text → s.remotecontol.timerActive = false) :
    HaltsElsewhere s' (effects ++ [e]) := by
  intro ip command hip hlast
  cases hstep with
  | remoteControl event => exact h.remoteControl event ip command hip hlast
  | editRobotIp text =>
    rw [lastCommand_append_of_silent (by simp)] at hlast
    exact h ip command (by simp [hedit text rfl]) hlast
  | _ =>
    rw [lastCommand_append_of_silent (by simp)] at hlast
    exact h ip command hip hlast

theorem inSession_step {earlier : List (Act Address)}
    (h : s.remotecontol.timerActive = true ↔
      RemoteControl.InSession (earlier.filterMap remoteEvent?)) (hstep : Step s a s' e) :
    s'.remotecontol.timerActive = true ↔
      RemoteControl.InSession ((earlier ++ [a]).filterMap remoteEvent?) := by
  have hother {b : Act Address} (hb : remoteEvent? b = none) :
      (earlier ++ [b]).filterMap remoteEvent? = earlier.filterMap remoteEvent? := by
    simp [hb]
  cases hstep with
  | remoteControl event =>
    rw [List.filterMap_append]
    exact RemoteControl.timerActive_handle h
  | calls mainalg ha => rwa [hother ha]
  | _ => rwa [hother rfl]

theorem EditsBetweenSessions.of_append {earlier : List (Act Address)}
    (h : EditsBetweenSessions (earlier ++ [a])) : EditsBetweenSessions earlier := by
  rintro before text after rfl
  exact h before text (after ++ [a]) (by simp)

def drive : List (Act QString) :=
  [.editRobotIp [0x31], .remoteControl .timerStart, .remoteControl (.keyPress 'W'.toNat),
    .remoteControl .timeout, .remoteControl .close]

/-- Edited during the session, the address that was driven is left without the
halt. -/
theorem not_halts_edit :
    ∃ s effects, Machine.run (step ConnectorWorker.asciiText) (new pausedWorker [0x31])
        [.remoteControl .timerStart, .remoteControl (.keyPress 'W'.toNat), .remoteControl .timeout,
          .editRobotIp [0x32], .remoteControl .close] = some (s, effects) ∧
      ∃ command, lastCommand effects [0x31] = some command ∧ ¬Halts command := by
  obtain ⟨s, effects, hrun, hlast⟩ : ∃ s effects,
      Machine.run (step ConnectorWorker.asciiText) (new pausedWorker [0x31])
        [.remoteControl .timerStart, .remoteControl (.keyPress 'W'.toNat), .remoteControl .timeout,
          .editRobotIp [0x32], .remoteControl .close] = some (s, effects) ∧
      lastCommand effects [0x31] = some (serializeCommand ⟨0, 10, 0, 0, 0, 4, 1, 0, 0⟩) :=
    ⟨_, _, rfl, rfl⟩
  refine ⟨s, effects, hrun, _, hlast, fun h => ?_⟩
  have hspeed := h.speedY
  rw [serializeCommand_eq, decode_generateByteArray] at hspeed
  exact absurd hspeed (by decide)

end MainWindow

end LARCmaCS
