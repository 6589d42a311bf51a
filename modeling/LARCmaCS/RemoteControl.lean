import LARCmaCS.Lib.Log
import LARCmaCS.Lib.Machine
import Mathlib.Logic.Function.Basic

/-!
# The remote control

The window of `remotecontrol.cpp` sends a command at every tick of its timer,
from the keys that are recorded as down. The record outlives the sessions: a
release that goes to another window never arrives, and neither `TimerStop` nor
`TimerStart` clears it. `staysStill_of_stillAtStart`: the robots do not resume
by themselves if every session begins with the motion keys up.
-/

namespace LARCmaCS

/-- Of `keys`, only the entries below 256 are ever written. -/
structure RemoteControl where
  timerActive : Bool
  keys : Nat → Bool
  key_shift : Bool
  effort : Int

inductive RCSignal
  | RC_control (left right kick beep : Int) (kickUp : Bool)
  | sendCommand (velX velY velAngular kickSpeedX kickSpeedY : Int) (id : Int)
  deriving DecidableEq

inductive RCEvent
  | keyPress (nkey : Nat)
  | keyRelease (nkey : Nat)
  | timeout
  | close
  | timerStart
  deriving DecidableEq

namespace RemoteControl

def QT_KEY_SHIFT_NATIVE : Nat := 16
def QT_KEY_ESCAPE_NATIVE : Nat := 27

def new : RemoteControl := ⟨false, fun _ => false, false, 1⟩

def TimerStart (s : RemoteControl) : RemoteControl :=
  if s.timerActive = false then { s with timerActive := true } else s

def TimerStop (s : RemoteControl) : RemoteControl × List RCSignal :=
  if s.timerActive then ({ s with timerActive := false }, [.RC_control 0 0 0 0 false]) else (s, [])

def closeEvent (s : RemoteControl) : RemoteControl × List RCSignal := s.TimerStop

def setKey (s : RemoteControl) (nkey : Nat) (down : Bool) : RemoteControl :=
  if nkey < 256 then { s with keys := Function.update s.keys nkey down } else s

def setShift (s : RemoteControl) (nkey : Nat) (down : Bool) : RemoteControl :=
  if nkey = QT_KEY_SHIFT_NATIVE then { s with key_shift := down } else s

def keyPressEvent (s : RemoteControl) (nkey : Nat) : RemoteControl × List RCSignal :=
  let s := s.setKey nkey true
  let closed := if nkey = QT_KEY_ESCAPE_NATIVE then s.closeEvent else (s, [])
  (closed.1.setShift nkey true, closed.2)

def keyReleaseEvent (s : RemoteControl) (nkey : Nat) : RemoteControl :=
  (s.setKey nkey false).setShift nkey false

/-- The slot up to its first unconditional `return`. -/
def RC_send (s : RemoteControl) : RemoteControl × List RCSignal :=
  let kickUp := s.keys ' '.toNat
  if s.keys 38 ∧ s.key_shift then ({ s with effort := s.effort + 1 }, [])
  else if s.keys 40 ∧ s.key_shift then
    ({ s with effort := if s.effort > 1 then s.effort - 1 else s.effort }, [])
  else
    let yVel := if s.keys 'W'.toNat ∨ s.keys 38 then 10 * s.effort else 0
    let yVel := if s.keys 'S'.toNat ∨ s.keys 40 then -10 * s.effort else yVel
    let xVel := if s.keys 'A'.toNat ∨ s.keys 37 then -20 * s.effort else 0
    let xVel := if s.keys 'D'.toNat ∨ s.keys 39 then 20 * s.effort else xVel
    let r := if s.keys 'R'.toNat then 10 * s.effort else 0
    let r := if s.keys 'F'.toNat then -10 * s.effort else r
    (s, [.RC_control xVel yVel r 0 kickUp,
      .sendCommand xVel yVel r (if kickUp then 10 else 0) 0 1])

/-- A timer that is not active does not tick. -/
def handle (s : RemoteControl) : RCEvent → RemoteControl × List RCSignal
  | .keyPress nkey => s.keyPressEvent nkey
  | .keyRelease nkey => (s.keyReleaseEvent nkey, [])
  | .timeout => if s.timerActive then s.RC_send else (s, [])
  | .close => s.closeEvent
  | .timerStart => (s.TimerStart, [])

def step (s : RemoteControl) (e : RCEvent) : Option (RemoteControl × List RCSignal) :=
  some (s.handle e)

-- ---------------------------------------------------------------------------
-- The law
-- ---------------------------------------------------------------------------

def IsKeyPress : RCEvent → Prop
  | .keyPress _ => True
  | _ => False

/-- Escape closes the window, too. -/
def Closes (e : RCEvent) : Prop := e = .close ∨ e = .keyPress QT_KEY_ESCAPE_NATIVE

def InSession : List RCEvent → Prop := Log.Since (· = .timerStart) Closes

/-- After some `TimerStart`, no key was pressed. -/
def Untouched : List RCEvent → Prop := Log.Since (· = .timerStart) IsKeyPress

def ZeroVelocity : RCSignal → Prop
  | .RC_control left right kick _ _ => left = 0 ∧ right = 0 ∧ kick = 0
  | .sendCommand velX velY velAngular .. => velX = 0 ∧ velY = 0 ∧ velAngular = 0

structure Allowed (earlier : List RCEvent) (e : RCEvent) (signals : List RCSignal) : Prop where
  closing : InSession earlier → Closes e → signals = [.RC_control 0 0 0 0 false]
  closed : ¬InSession earlier → signals = []
  untouched : Untouched earlier → ∀ signal ∈ signals, ZeroVelocity signal

def StaysStill (events : List RCEvent) : Prop :=
  ∀ earlier e later s log, events = earlier ++ e :: later →
    Machine.run step new earlier = some (s, log) → Allowed earlier e (s.handle e).2

-- ---------------------------------------------------------------------------
-- What a step does
-- ---------------------------------------------------------------------------

def motionKeys : List Nat :=
  ['W'.toNat, 38, 'S'.toNat, 40, 'A'.toNat, 37, 'D'.toNat, 39, 'R'.toNat, 'F'.toNat]

def MotionKeysUp (s : RemoteControl) : Prop := ∀ k ∈ motionKeys, s.keys k = false

instance (s : RemoteControl) : Decidable s.MotionKeysUp :=
  inferInstanceAs (Decidable (∀ k ∈ motionKeys, s.keys k = false))

variable {s s' : RemoteControl} {e : RCEvent} {signals : List RCSignal} {nkey : Nat} {down : Bool}

@[simp] theorem timerActive_setKey : (s.setKey nkey down).timerActive = s.timerActive := by
  rw [setKey]
  split <;> rfl

@[simp] theorem effort_setKey : (s.setKey nkey down).effort = s.effort := by
  rw [setKey]
  split <;> rfl

theorem keys_setKey_of_ne {k : Nat} (h : k ≠ nkey) : (s.setKey nkey down).keys k = s.keys k := by
  rw [setKey]
  split
  · exact Function.update_of_ne h _ _
  · rfl

@[simp] theorem timerActive_setShift : (s.setShift nkey down).timerActive = s.timerActive := by
  rw [setShift]
  split <;> rfl

@[simp] theorem effort_setShift : (s.setShift nkey down).effort = s.effort := by
  rw [setShift]
  split <;> rfl

@[simp] theorem keys_setShift : (s.setShift nkey down).keys = s.keys := by
  rw [setShift]
  split <;> rfl

@[simp] theorem timerActive_TimerStop : s.TimerStop.1.timerActive = false := by
  rw [TimerStop]
  cases h : s.timerActive <;> simp [h]

@[simp] theorem keys_TimerStop : s.TimerStop.1.keys = s.keys := by
  rw [TimerStop]
  split <;> rfl

@[simp] theorem effort_TimerStop : s.TimerStop.1.effort = s.effort := by
  rw [TimerStop]
  split <;> rfl

@[simp] theorem timerActive_TimerStart : s.TimerStart.timerActive = true := by
  rw [TimerStart]
  cases h : s.timerActive <;> simp [h]

@[simp] theorem keys_TimerStart : s.TimerStart.keys = s.keys := by
  rw [TimerStart]
  split <;> rfl

@[simp] theorem effort_TimerStart : s.TimerStart.effort = s.effort := by
  rw [TimerStart]
  split <;> rfl

@[simp] theorem timerActive_RC_send : s.RC_send.1.timerActive = s.timerActive := by
  rw [RC_send]
  split_ifs <;> rfl

@[simp] theorem keys_RC_send : s.RC_send.1.keys = s.keys := by
  rw [RC_send]
  split_ifs <;> rfl

theorem one_le_effort_RC_send (h : 1 ≤ s.effort) : 1 ≤ s.RC_send.1.effort := by
  rw [RC_send]
  split_ifs <;> simp only [] <;> omega

theorem MotionKeysUp.keyReleaseEvent (h : s.MotionKeysUp) :
    (s.keyReleaseEvent nkey).MotionKeysUp := by
  intro k hk
  rw [RemoteControl.keyReleaseEvent, keys_setShift]
  by_cases heq : k = nkey
  · subst heq
    rw [setKey]
    split
    · exact Function.update_self ..
    · exact h k hk
  · rw [keys_setKey_of_ne heq, h k hk]

theorem zeroVelocity_RC_send (h : s.MotionKeysUp) :
    ∀ signal ∈ s.RC_send.2, ZeroVelocity signal := by
  simp only [MotionKeysUp, motionKeys, List.forall_mem_cons, Char.reduceToNat] at h
  obtain ⟨hW, h38, hS, h40, hA, h37, hD, h39, hR, hF, -⟩ := h
  simp [RC_send, ZeroVelocity, hW, h38, hS, h40, hA, h37, hD, h39, hR, hF]

theorem not_of_axis {a b : Prop} [Decidable a] [Decidable b] {u v : Int} (hu : u ≠ 0) (hv : v ≠ 0)
    (h : (if a then u else if b then v else 0) = 0) : ¬a ∧ ¬b := by
  split_ifs at h with ha hb
  · exact absurd h hu
  · exact absurd h hv
  · exact ⟨ha, hb⟩

/-- While shift is up, a slot that sends zero velocities found the keys up. -/
theorem motionKeysUp_of_RC_send (hshift : s.key_shift = false) (heffort : 1 ≤ s.effort)
    (h : ∀ signal ∈ s.RC_send.2, ZeroVelocity signal) : s.MotionKeysUp := by
  have hsignal := h _ (by
    rw [RC_send, hshift, if_neg (by simp), if_neg (by simp)]
    exact List.mem_cons_self)
  obtain ⟨hx, hy, hr⟩ := hsignal
  obtain ⟨hD, hA⟩ := not_of_axis (by omega) (by omega) hx
  obtain ⟨hS, hW⟩ := not_of_axis (by omega) (by omega) hy
  obtain ⟨hF, hR⟩ := not_of_axis (by omega) (by omega) hr
  simp only [not_or, Bool.not_eq_true] at hD hA hS hW hF hR
  simp only [MotionKeysUp, motionKeys, List.forall_mem_cons]
  exact ⟨hW.1, hW.2, hS.1, hS.2, hA.1, hA.2, hD.1, hD.2, hR, hF,
    fun _ h => absurd h List.not_mem_nil⟩

-- ---------------------------------------------------------------------------
-- What an event does
-- ---------------------------------------------------------------------------

@[simp] theorem timerActive_keyPressEvent :
    (s.keyPressEvent nkey).1.timerActive =
      if nkey = QT_KEY_ESCAPE_NATIVE then false else s.timerActive := by
  by_cases h : nkey = QT_KEY_ESCAPE_NATIVE <;> simp [keyPressEvent, closeEvent, h]

@[simp] theorem effort_keyPressEvent : (s.keyPressEvent nkey).1.effort = s.effort := by
  by_cases h : nkey = QT_KEY_ESCAPE_NATIVE <;> simp [keyPressEvent, closeEvent, h]

theorem timerActive_handle {earlier : List RCEvent} (h : s.timerActive = true ↔ InSession earlier) :
    (s.handle e).1.timerActive = true ↔ InSession (earlier ++ [e]) := by
  rw [InSession, Log.since_append_singleton, ← InSession, ← h]
  cases e with
  | keyPress nkey => by_cases hesc : nkey = QT_KEY_ESCAPE_NATIVE <;> simp [handle, Closes, hesc]
  | keyRelease nkey => simp [handle, keyReleaseEvent, Closes]
  | timeout =>
    rw [handle]
    split <;> simp [Closes]
  | close => simp [handle, closeEvent, Closes]
  | timerStart => simp [handle]

theorem one_le_effort_handle (h : 1 ≤ s.effort) : 1 ≤ (s.handle e).1.effort := by
  cases e with
  | keyPress nkey => rwa [handle, effort_keyPressEvent]
  | keyRelease nkey => simpa [handle, keyReleaseEvent] using h
  | timeout =>
    rw [handle]
    split
    · exact one_le_effort_RC_send h
    · exact h
  | close => rwa [handle, closeEvent, effort_TimerStop]
  | timerStart => rwa [handle, effort_TimerStart]

/-- A session begins with no motion key recorded as down. -/
def StillAtStart (s : RemoteControl) (e : RCEvent) : Prop := e = .timerStart → s.MotionKeysUp

instance (s : RemoteControl) (e : RCEvent) : Decidable (s.StillAtStart e) :=
  inferInstanceAs (Decidable (_ → _))

theorem motionKeysUp_handle {earlier : List RCEvent} (h : Untouched earlier → s.MotionKeysUp)
    (hstart : s.StillAtStart e) (huntouched : Untouched (earlier ++ [e])) :
    (s.handle e).1.MotionKeysUp := by
  rw [Untouched, Log.since_append_singleton, ← Untouched] at huntouched
  cases e with
  | keyPress nkey => exact absurd trivial (huntouched.resolve_left (by simp)).2
  | keyRelease nkey => exact (h (huntouched.resolve_left (by simp)).1).keyReleaseEvent
  | timeout =>
    have hup := h (huntouched.resolve_left (by simp)).1
    rw [handle]
    split
    · exact fun k hk => by rw [keys_RC_send, hup k hk]
    · exact hup
  | close =>
    have hup := h (huntouched.resolve_left (by simp)).1
    exact fun k hk => by rw [handle, closeEvent, keys_TimerStop, hup k hk]
  | timerStart => exact fun k hk => by rw [handle, keys_TimerStart, hstart rfl k hk]

theorem signals_TimerStop :
    s.TimerStop.2 = if s.timerActive then [.RC_control 0 0 0 0 false] else [] := by
  rw [TimerStop]
  split <;> rfl

theorem signals_keyPressEvent :
    (s.keyPressEvent nkey).2 =
      if nkey = QT_KEY_ESCAPE_NATIVE ∧ s.timerActive then [.RC_control 0 0 0 0 false] else [] := by
  by_cases h : nkey = QT_KEY_ESCAPE_NATIVE <;>
    simp [keyPressEvent, closeEvent, signals_TimerStop, h]

theorem allowed_handle {earlier : List RCEvent} (hactive : s.timerActive = true ↔ InSession earlier)
    (hup : Untouched earlier → s.MotionKeysUp) : Allowed earlier e (s.handle e).2 := by
  rw [InSession] at hactive
  constructor
  · intro hsession hcloses
    have hrunning := hactive.mpr hsession
    rcases hcloses with rfl | rfl
    · simp [handle, closeEvent, signals_TimerStop, hrunning]
    · simp [handle, signals_keyPressEvent, hrunning]
  · intro hsession
    have hstopped : s.timerActive = false := by
      rwa [← Bool.not_eq_true, hactive]
    cases e <;> simp [handle, signals_keyPressEvent, closeEvent, signals_TimerStop, hstopped]
  · intro huntouched signal hsignal
    cases e with
    | keyPress nkey =>
      rw [handle, signals_keyPressEvent] at hsignal
      split at hsignal
      · rw [List.mem_singleton.mp hsignal]
        exact ⟨rfl, rfl, rfl⟩
      · cases hsignal
    | keyRelease | timerStart => cases hsignal
    | timeout =>
      rw [handle] at hsignal
      split at hsignal
      · exact zeroVelocity_RC_send (hup huntouched) signal hsignal
      · cases hsignal
    | close =>
      rw [handle, closeEvent, signals_TimerStop] at hsignal
      split at hsignal
      · rw [List.mem_singleton.mp hsignal]
        exact ⟨rfl, rfl, rfl⟩
      · cases hsignal

-- ---------------------------------------------------------------------------
-- Runs
-- ---------------------------------------------------------------------------

theorem timerActive_run {events : List RCEvent} {log : List (List RCSignal)}
    (hrun : Machine.run step new events = some (s, log)) :
    s.timerActive = true ↔ InSession events := by
  refine Machine.run_induction (I := fun earlier s _ => s.timerActive = true ↔ InSession earlier)
    ?_ ?_ hrun
  · exact iff_of_false Bool.false_ne_true Log.not_since_nil
  · intro earlier t outs e t' out hactive hstep
    obtain rfl : (t.handle e).1 = t' := congrArg Prod.fst (Option.some.inj hstep)
    exact timerActive_handle hactive

theorem one_le_effort_run {events : List RCEvent} {log : List (List RCSignal)}
    (hrun : Machine.run step new events = some (s, log)) : 1 ≤ s.effort := by
  refine Machine.run_invariant (I := fun s _ => 1 ≤ s.effort) Int.le_rfl ?_ hrun
  intro t outs e t' out heffort hstep
  obtain rfl : (t.handle e).1 = t' := congrArg Prod.fst (Option.some.inj hstep)
  exact one_le_effort_handle heffort

theorem motionKeysUp_run {events : List RCEvent} {log : List (List RCSignal)}
    (hstart : Machine.Always step StillAtStart new events)
    (hrun : Machine.run step new events = some (s, log)) (h : Untouched events) :
    s.MotionKeysUp := by
  revert h
  refine Machine.run_induction_of (I := fun earlier s _ => Untouched earlier → s.MotionKeysUp)
    (C := StillAtStart) ?_ ?_ hstart hrun
  · exact fun h => absurd h Log.not_since_nil
  · intro earlier t outs e t' out hup he hstep
    obtain rfl : (t.handle e).1 = t' := congrArg Prod.fst (Option.some.inj hstep)
    exact motionKeysUp_handle hup he

/-- With a motion key down, a session can begin in which the robot moves
although no key is pressed: shift is released, and the timer ticks. -/
theorem not_staysStill_of_down {events : List RCEvent} {log : List (List RCSignal)}
    (hrun : Machine.run step new events = some (s, log)) (hdown : ¬s.MotionKeysUp) :
    ¬StaysStill (events ++ [.timerStart, .keyRelease QT_KEY_SHIFT_NATIVE, .timeout]) := by
  intro hstill
  let t := s.TimerStart.keyReleaseEvent QT_KEY_SHIFT_NATIVE
  have hevents : events ++ [.timerStart, .keyRelease QT_KEY_SHIFT_NATIVE, .timeout] =
      (events ++ [.timerStart] ++ [.keyRelease QT_KEY_SHIFT_NATIVE]) ++ .timeout :: [] := by simp
  have ht : Machine.run step new (events ++ [.timerStart] ++ [.keyRelease QT_KEY_SHIFT_NATIVE]) =
      some (t, log ++ [[]] ++ [[]]) :=
    Machine.run_append_singleton.mpr ⟨_, _, _,
      Machine.run_append_singleton.mpr ⟨_, _, _, hrun, rfl, rfl⟩, rfl, rfl⟩
  have hactive : t.timerActive = true := by simp [t, keyReleaseEvent]
  have huntouched : Untouched (events ++ [.timerStart] ++ [.keyRelease QT_KEY_SHIFT_NATIVE]) :=
    ⟨events, .timerStart, [.keyRelease QT_KEY_SHIFT_NATIVE], by simp, rfl, by simp [IsKeyPress]⟩
  have hzero := (hstill _ _ _ _ _ hevents ht).untouched huntouched
  rw [handle, if_pos hactive] at hzero
  have hup : t.MotionKeysUp := motionKeysUp_of_RC_send rfl (one_le_effort_run ht) hzero
  refine hdown fun k hk => ?_
  have hne : k ≠ QT_KEY_SHIFT_NATIVE := fun heq => absurd (heq ▸ hk) (by decide)
  calc s.keys k = s.TimerStart.keys k := by rw [keys_TimerStart]
    _ = (s.TimerStart.keyReleaseEvent QT_KEY_SHIFT_NATIVE).keys k := by
      rw [keyReleaseEvent, keys_setShift, keys_setKey_of_ne hne]
    _ = false := hup k hk

/-- If every session begins with the motion keys up, the robots do not resume
by themselves. -/
theorem staysStill_of_stillAtStart (events : List RCEvent)
    (hstart : Machine.Always step StillAtStart new events) : StaysStill events := by
  rintro earlier e later s log rfl hrun
  exact allowed_handle (timerActive_run hrun) (motionKeysUp_run hstart.of_append hrun)

/-- The key `W` is released before the window is closed. -/
theorem staysStill_of_stillAtStart_released :
    StaysStill [.timerStart, .keyPress 87, .timeout, .keyRelease 87, .close, .timerStart,
      .timeout] := by
  apply staysStill_of_stillAtStart
  iterate 7 refine .cons_of rfl (by decide) ?_
  exact .nil

theorem not_staysStill_key_down :
    ¬StaysStill [.timerStart, .keyPress 87, .close, .timerStart, .timeout] := by
  intro h
  have hallowed := h [.timerStart, .keyPress 87, .close, .timerStart] .timeout [] _ _ rfl rfl
  have huntouched : Untouched [.timerStart, .keyPress 87, .close, .timerStart] :=
    ⟨[.timerStart, .keyPress 87, .close], .timerStart, [], rfl, rfl, by simp⟩
  have hzero := hallowed.untouched huntouched
  exact absurd (hzero _ List.mem_cons_self).2.1 (by decide)

end RemoteControl

end LARCmaCS
