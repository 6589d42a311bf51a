import Mathlib.Algebra.Field.Rat
import LARCmaCS.Lib.Log
import LARCmaCS.Lib.Machine
import LARCmaCS.MainAlg

/-!
# When the robots may move

`run_cases` says once what a call does; the two properties of runs follow from
it. Robots are moved only on the word of the latest poll, provided `isPause`
was set when the worker was built (`failSafe_iff`). A pause reaches every
robot that was moved, provided no row addresses a robot beyond those the pause
loop addresses (`pauseReaches_of_rowsCovered`).
-/

namespace LARCmaCS.MainAlgWorker

-- ---------------------------------------------------------------------------
-- What a call does
-- ---------------------------------------------------------------------------

theorem foldlM_rows {f : Nat → Option Newmess} {g : Newmess → List MainAlgEvent} {rows : List Nat}
    {init commands : List MainAlgEvent}
    (h : rows.foldlM (fun events i => (f i).map fun newmess => events ++ g newmess) init =
      some commands) :
    ∀ e ∈ commands, e ∈ init ∨ ∃ i ∈ rows, ∃ newmess, f i = some newmess ∧ e ∈ g newmess := by
  induction rows generalizing init with
  | nil =>
    cases h
    exact fun e he => .inl he
  | cons i rows ih =>
    simp only [List.foldlM_cons, Option.bind_eq_bind, Option.bind_eq_some_iff,
      Option.map_eq_some_iff] at h
    obtain ⟨_, ⟨newmess, hrow, rfl⟩, hrest⟩ := h
    intro e he
    obtain hinit | ⟨j, hj, hmore⟩ := ih hrest e he
    · rcases List.mem_append.mp hinit with hinit | hnew
      · exact .inl hinit
      · exact .inr ⟨i, by simp, newmess, hrow, hnew⟩
    · exact .inr ⟨j, by simp [hj], hmore⟩

def Parses (w : MainAlgWorker) (call : Call) (newmess : Newmess) : Prop :=
  ∃ rules i, ruleArray call.rules = some rules ∧ i < w.config.ruleAmount.toNat ∧
    w.readRow rules (call.stack i) i = some newmess

theorem run_of_up {w w' : MainAlgWorker} {call : Call} {events : List MainAlgEvent}
    (hup : w.shutdowncomp = false) :
    w.run call = some (w', events) ↔ ∃ rules commands polled, ruleArray call.rules = some rules ∧
      w.ruleLoop rules call.stack = some commands ∧
      (w.account call.clock).status call.clock call.status = (w', polled) ∧
      events = (w.callMatlab call.packetssl ++ .engEvalString w.clearRules :: commands) ++
        (polled ++ (if w'.isPause then pauseLoop else []) ++ [.mainAlgFree]) := by
  rcases hstatus : (w.account call.clock).status call.clock call.status with ⟨t, polled⟩
  simp only [run, hup, hstatus, Bool.false_eq_true, if_false, Option.bind_eq_bind,
    Option.bind_eq_some_iff, Option.some.injEq, Prod.mk.injEq]
  constructor
  · rintro ⟨rules, hrules, commands, hloop, rfl, rfl⟩
    exact ⟨rules, commands, polled, hrules, hloop, ⟨rfl, rfl⟩, by simp⟩
  · rintro ⟨rules, commands, _, hrules, hloop, ⟨rfl, rfl⟩, rfl⟩
    exact ⟨rules, hrules, commands, hloop, rfl, by simp⟩

/-- A call of a worker that was shut down does nothing. Any other emits what
its rows give rise to, then at most the statistics and the poll, then the
pause commands if the poll left the robots paused. -/
theorem run_cases {w w' : MainAlgWorker} {call : Call} {events : List MainAlgEvent}
    (h : w.run call = some (w', events)) :
    (w.shutdowncomp = true ∧ w' = w ∧ events = []) ∨
      w.shutdowncomp = false ∧ ∃ commands polled,
        (∀ e ∈ commands, ∃ newmess, w.Parses call newmess ∧ e ∈ w.ruleRow newmess) ∧
        (w.account call.clock).status call.clock call.status = (w', polled) ∧
        events = (w.callMatlab call.packetssl ++ .engEvalString w.clearRules :: commands) ++
          (polled ++ (if w'.isPause then pauseLoop else []) ++ [.mainAlgFree]) := by
  cases hdown : w.shutdowncomp with
  | true =>
    simp only [run, hdown, if_true, Option.some.injEq, Prod.mk.injEq] at h
    exact .inl ⟨rfl, h.1.symm, h.2.symm⟩
  | false =>
    obtain ⟨rules, commands, polled, hrules, hloop, hstatus, hevents⟩ := (run_of_up hdown).mp h
    refine .inr ⟨rfl, commands, polled, fun e he => ?_, hstatus, hevents⟩
    rw [ruleLoop_eq, Option.bind_eq_bind, Option.bind_eq_some_iff] at hloop
    obtain ⟨_, -, hloop⟩ := hloop
    obtain hnil | ⟨i, hi, newmess, hrow, he⟩ := foldlM_rows hloop e he
    · cases hnil
    · exact ⟨newmess, ⟨rules, i, hrules, List.mem_range.mp hi, hrow⟩, he⟩

theorem status_cases {w w' : MainAlgWorker} {clock : ClockReadings} {answer : StatusAnswer}
    {polled : List MainAlgEvent} (h : status w clock answer = (w', polled)) :
    (w'.isPause = w.isPause ∧ polled = []) ∨
      w'.isPause = (pauseState answer).1 ∧ ∃ text,
        polled = [.statusMessage text, .engEvalString "ispause=RP.Pause", .statusPoll answer,
          .updatePauseState (pauseState answer).2] := by
  unfold status at h
  split at h
  · cases h
    exact .inr ⟨rfl, _, rfl⟩
  · cases h
    exact .inl ⟨rfl, rfl⟩

inductive RowCommand (w : MainAlgWorker) (newmess : Newmess) : MainAlgEvent → Prop
  | forward : RowCommand w newmess (.sendToBTtransmitter newmess)
  | single (hpause : w.isPause = false) (hrobot : 0 < robot newmess) :
      RowCommand w newmess (.grSim (hundredth (column newmess 2)) (hundredth (column newmess 3))
        (hundredth (column newmess 5)) 0 0 (robot newmess))
  | all {i : Nat} (hi : 1 ≤ i) (hi' : i ≤ MAX_NUM_ROBOTS) :
      RowCommand w newmess (.grSim (.ofInt (rowMessage w.isPause newmess).getSpeedX.toInt)
        (.ofInt (rowMessage w.isPause newmess).getSpeedY.toInt)
        (.ofInt (rowMessage w.isPause newmess).getSpeedR.toInt) kickSpeedX kickSpeedY i)
  | connector {N : Int} (hN : 1 ≤ N) (hN' : N ≤ MAX_NUM_ROBOTS) :
      RowCommand w newmess
        (.sendToConnector N (rowMessage w.isPause newmess).generateByteArray)

theorem rowCommand_of_mem {w : MainAlgWorker} {newmess : Newmess} {e : MainAlgEvent}
    (h : e ∈ w.ruleRow newmess) : Active newmess ∧ RowCommand w newmess e := by
  unfold ruleRow at h
  split at h
  · rename_i hactive
    refine ⟨hactive, ?_⟩
    simp only [List.mem_append] at h
    obtain ((h | h) | h) | h := h
    · split at h
      · rw [List.mem_singleton.mp h]
        exact .forward
      · cases h
    · unfold singleCommand at h
      split at h
      · rename_i hsingle
        rw [List.mem_singleton.mp h]
        exact .single hsingle.1 hsingle.2
      · cases h
    · split at h
      · obtain ⟨i, hi, he⟩ := List.mem_flatMap.mp h
        rw [List.mem_range'_1] at hi
        simp only [broadcastCommand, List.mem_cons, List.not_mem_nil, or_false] at he
        rcases he with rfl | rfl
        · exact .all hi.1 (by omega)
        · exact .connector (by omega) (by omega)
      · cases h
    · split at h
      · rename_i hn
        rw [List.mem_singleton.mp h]
        exact .connector hn.1 hn.2
      · cases h
  · cases h

theorem mem_pauseLoop {e : MainAlgEvent} :
    e ∈ pauseLoop ↔ ∃ i : Nat, (1 ≤ i ∧ i ≤ 12) ∧
      (e = .sendToConnector i pauseMessage.generateByteArray ∨ e = .grSim 0 0 0 0 0 (i - 1)) := by
  simp only [pauseLoop, List.mem_flatMap, List.mem_range'_1, List.mem_cons, List.not_mem_nil, or_false,
    Nat.lt_succ_iff, Nat.reduceAdd]

-- ---------------------------------------------------------------------------
-- Moving only on the word of the latest poll
-- ---------------------------------------------------------------------------

def poll? : MainAlgEvent → Option StatusAnswer
  | .statusPoll answer => some answer
  | _ => none

/-- Matlab is not paused and its main function has reached its end. -/
def Running (answer : StatusAnswer) : Prop :=
  answer.ispause = some (some 0) ∧ ∃ zMainEnd, answer.zMainEnd = some (some zMainEnd) ∧ zMainEnd ≠ 0

def Moves : MainAlgEvent → Prop
  | .sendToConnector _ command =>
    (Frame.decode command).speedX ≠ 0 ∨ (Frame.decode command).speedY ≠ 0 ∨
      (Frame.decode command).speedR ≠ 0 ∨ (Frame.decode command).kickForward ≠ 0
  | _ => False

/-- In a log with an entry for each step: before a frame that moves a robot
was sent, an earlier step polled, and the latest poll found Matlab running. -/
def FailSafe (log : List (List MainAlgEvent)) : Prop :=
  ∀ earlier events later before e after, log = earlier ++ events :: later →
    events = before ++ e :: after → Moves e →
    ∃ answer, Log.latest poll? earlier.flatten = some answer ∧
      Log.latest poll? (earlier.flatten ++ before) = some answer ∧ Running answer

theorem FailSafe.of_mem {earlier later : List (List MainAlgEvent)} {events : List MainAlgEvent}
    {e : MainAlgEvent} (h : FailSafe (earlier ++ events :: later)) (he : e ∈ events)
    (hmoves : Moves e) : ∃ answer, Log.latest poll? earlier.flatten = some answer := by
  obtain ⟨before, after, hsplit⟩ := List.append_of_mem he
  obtain ⟨answer, hlatest, -⟩ := h earlier events later before e after rfl hsplit hmoves
  exact ⟨answer, hlatest⟩

theorem pauseState_fst (answer : StatusAnswer) :
    (pauseState answer).1 = false ↔ Running answer := by
  obtain ⟨ispause, zMainEnd⟩ := answer
  rcases ispause with _ | _ | itpause
  · simp [pauseState, Running]
  · simp [pauseState, Running]
  · by_cases hpause : itpause = 0
    · rcases zMainEnd with _ | _ | zMainEnd
      · simp [pauseState, Running, hpause]
      · simp [pauseState, Running, hpause]
      · by_cases hend : zMainEnd = 0 <;> simp [pauseState, Running, hpause, hend]
    · simp [pauseState, Running, hpause]

theorem not_moves_pauseMessage (N : Int) :
    ¬ Moves (.sendToConnector N pauseMessage.generateByteArray) := by
  simp only [Moves, decode_generateByteArray]
  decide

theorem poll?_ruleRow {w : MainAlgWorker} {newmess : Newmess} {e : MainAlgEvent}
    (he : e ∈ w.ruleRow newmess) : poll? e = none := by
  cases (rowCommand_of_mem he).2 <;> rfl

theorem isPause_of_moves {w : MainAlgWorker} {newmess : Newmess} {e : MainAlgEvent}
    (he : e ∈ w.ruleRow newmess) (hmoves : Moves e) : w.isPause = false := by
  refine Bool.eq_false_of_not_eq_true fun hpause => ?_
  cases (rowCommand_of_mem he).2 with
  | forward | single | all => exact hmoves
  | connector =>
    rw [hpause] at hmoves
    exact not_moves_pauseMessage _ hmoves

theorem not_moves_pauseLoop {e : MainAlgEvent} (he : e ∈ pauseLoop) : ¬ Moves e := by
  obtain ⟨i, -, rfl | rfl⟩ := mem_pauseLoop.mp he
  · exact not_moves_pauseMessage _
  · exact id

theorem callMatlab_quiet {w : MainAlgWorker} {packetssl : PacketSSL} {e : MainAlgEvent}
    (he : e ∈ w.callMatlab packetssl) : poll? e = none ∧ ¬ Moves e := by
  simp only [callMatlab, List.mem_cons, List.not_mem_nil, or_false] at he
  rcases he with rfl | rfl | rfl | rfl <;> exact ⟨rfl, id⟩

theorem status_quiet {w w' : MainAlgWorker} {clock : ClockReadings} {answer : StatusAnswer}
    {polled : List MainAlgEvent} (h : w.status clock answer = (w', polled)) {e : MainAlgEvent}
    (he : e ∈ polled ++ (if w'.isPause then pauseLoop else []) ++ [.mainAlgFree]) : ¬ Moves e := by
  simp only [List.mem_append, List.mem_singleton] at he
  obtain (he | he) | rfl := he
  · obtain ⟨-, rfl⟩ | ⟨-, text, rfl⟩ := status_cases h
    · cases he
    · simp only [List.mem_cons, List.not_mem_nil, or_false] at he
      rcases he with rfl | rfl | rfl | rfl <;> exact id
  · split at he
    · exact not_moves_pauseLoop he
    · cases he
  · exact id

/-- A call sends a moving frame only if the robots are not paused, and before
it polls. -/
theorem moves_of_run {w w' : MainAlgWorker} {call : Call} {events before after : List MainAlgEvent}
    {e : MainAlgEvent} (h : w.run call = some (w', events)) (hsplit : events = before ++ e :: after)
    (hmoves : Moves e) : w.isPause = false ∧ ∀ e ∈ before, poll? e = none := by
  obtain ⟨-, -, rfl⟩ | ⟨-, commands, polled, hrows, hstatus, rfl⟩ := run_cases h
  · simp at hsplit
  have hlate := status_quiet hstatus (e := e)
  constructor
  · have he := hsplit ▸ List.mem_append_right before (List.mem_cons_self (a := e) (l := after))
    rcases List.mem_append.mp he with he | he
    · simp only [List.mem_append, List.mem_cons] at he
      obtain he | rfl | he := he
      · exact absurd hmoves (callMatlab_quiet he).2
      · exact hmoves.elim
      · obtain ⟨newmess, -, he⟩ := hrows e he
        exact isPause_of_moves he hmoves
    · exact absurd hmoves (hlate he)
  · obtain ⟨as, -, hlater⟩ | ⟨bs, hearlier, -⟩ := List.append_eq_append_iff.mp hsplit
    · exact absurd hmoves (hlate (by rw [hlater]; simp))
    · intro x hx
      have hx := hearlier ▸ List.mem_append_left bs hx
      simp only [List.mem_append, List.mem_cons] at hx
      obtain hx | rfl | hx := hx
      · exact (callMatlab_quiet hx).1
      · rfl
      · obtain ⟨newmess, -, hx⟩ := hrows x hx
        exact poll?_ruleRow hx

theorem latest_poll_of_run {w w' : MainAlgWorker} {call : Call} {events : List MainAlgEvent}
    (h : w.run call = some (w', events)) :
    (w'.isPause = w.isPause ∧ Log.latest poll? events = none) ∨
      ∃ answer, w'.isPause = (pauseState answer).1 ∧ Log.latest poll? events = some answer := by
  obtain ⟨-, rfl, rfl⟩ | ⟨-, commands, polled, hrows, hstatus, rfl⟩ := run_cases h
  · exact .inl ⟨rfl, rfl⟩
  have hcommands : Log.latest poll? commands = none := by
    refine Log.latest_eq_none.mpr fun e he => ?_
    obtain ⟨newmess, -, he⟩ := hrows e he
    exact poll?_ruleRow he
  have hloop : Log.latest poll? (if w'.isPause then pauseLoop else []) = none := by
    refine Log.latest_eq_none.mpr fun e he => ?_
    split at he
    · obtain ⟨i, -, rfl | rfl⟩ := mem_pauseLoop.mp he <;> rfl
    · cases he
  have hmatlab : Log.latest poll? (w.callMatlab call.packetssl) = none :=
    Log.latest_eq_none.mpr fun e he => (callMatlab_quiet he).1
  obtain ⟨hpause, rfl⟩ | ⟨hpause, text, rfl⟩ := status_cases hstatus
  · exact .inl ⟨hpause, by simp [hcommands, hloop, hmatlab, poll?]⟩
  · exact .inr ⟨_, hpause, by simp [hloop, poll?]⟩

/-- What the latest poll found is what `isPause` says, and moving frames
respected it. -/
structure Informed (w : MainAlgWorker) (log : List (List MainAlgEvent)) : Prop where
  failSafe : FailSafe log
  running : w.isPause = false → ∃ answer, Log.latest poll? log.flatten = some answer ∧ Running answer

theorem Informed.run {w w' : MainAlgWorker} {call : Call} {events : List MainAlgEvent}
    {log : List (List MainAlgEvent)} (h : w.run call = some (w', events)) (hw : Informed w log) :
    Informed w' (log ++ [events]) := by
  constructor
  · intro earlier events' later before e after hlog hsplit hmoves
    obtain ⟨-, rfl, rfl⟩ | ⟨later', -, rfl⟩ := Log.append_singleton_eq_split hlog
    · obtain ⟨hpause, hbefore⟩ := moves_of_run h hsplit hmoves
      obtain ⟨answer, hlatest, hrunning⟩ := hw.running hpause
      exact ⟨answer, hlatest, by rw [Log.latest_append_of_silent hbefore, hlatest], hrunning⟩
    · exact hw.failSafe earlier events' later' before e after rfl hsplit hmoves
  · intro hpause
    rw [List.flatten_append, List.flatten_singleton, Log.latest_append]
    obtain ⟨hsame, hnone⟩ | ⟨answer, hanswer, hlatest⟩ := latest_poll_of_run h
    · rw [hnone, Option.none_or]
      exact hw.running (hsame ▸ hpause)
    · rw [hlatest, Option.some_or]
      exact ⟨answer, rfl, (pauseState_fst answer).mp (hanswer ▸ hpause)⟩

theorem Informed.step {w w' : MainAlgWorker} {a : Act} {events : List MainAlgEvent}
    {log : List (List MainAlgEvent)} (h : step w a = some (w', events)) (hw : Informed w log) :
    Informed w' (log ++ [events]) := by
  cases a with
  | run call => exact hw.run h
  | start | stop | send2BTChangeit =>
    cases h
    constructor
    · intro earlier events later before e after hlog hsplit hmoves
      obtain ⟨-, rfl, -⟩ | ⟨later', -, rfl⟩ := Log.append_singleton_eq_split hlog
      · simp at hsplit
      · exact hw.failSafe earlier events later' before e after rfl hsplit hmoves
    · simpa using hw.running

-- ---------------------------------------------------------------------------
-- One row
-- ---------------------------------------------------------------------------

def oneRow : RCConfig := ⟨"main", 1, 6⟩

def driveForward (n : Int) (clock : ClockReadings) (status : StatusAnswer) : Call where
  packetssl := .new
  clock
  rules := some (some fun k => .ofInt ([1, n, 100].getD k 0))
  stack := fun _ _ => 0
  status

def forwardRow (n : Int) : Newmess := fun j => BitVec.ofInt 8 ([1, n, 100].getD j 0)

theorem readRow_driveForward {w : MainAlgWorker} {n : Int} (hconfig : w.config = oneRow)
    (hn : -128 ≤ n ∧ n < 128) :
    w.readRow (fun k => .ofInt ([1, n, 100].getD k 0)) (fun _ => 0) 0 = some (forwardRow n) := by
  rw [readRow_of_le (by rw [hconfig]; decide), hconfig]
  refine congrArg some (funext fun j => ?_)
  have hrange : -2 ^ 31 ≤ [1, n, 100].getD j 0 ∧ [1, n, 100].getD j 0 < 2 ^ 31 := by
    match (j : Nat) with
    | 0 | 1 | 2 | _ + 3 => simp; try omega
  split
  · simp only [oneRow, Int.toNat_one, Nat.mul_one, Nat.add_zero]
    exact Double.toChar_ofInt hrange
  · rename_i hj
    obtain ⟨k, hk⟩ : ∃ k, (j : Nat) = k + 6 :=
      ⟨j - 6, (Nat.sub_add_cancel (Nat.le_of_not_lt hj)).symm⟩
    simp [forwardRow, hk]

theorem run_driveForward {w : MainAlgWorker} {n : Int} {clock : ClockReadings}
    {answer : StatusAnswer} (hup : w.shutdowncomp = false) (hconfig : w.config = oneRow)
    (hn : -128 ≤ n ∧ n < 128) :
    w.run (driveForward n clock answer) =
      some (((w.account clock).status clock answer).1,
        (w.callMatlab .new ++ .engEvalString w.clearRules :: w.ruleRow (forwardRow n)) ++
          (((w.account clock).status clock answer).2 ++
            (if ((w.account clock).status clock answer).1.isPause then pauseLoop else []) ++
            [.mainAlgFree])) := by
  refine (run_of_up hup).mpr ⟨_, _, _, rfl, ?_, rfl, rfl⟩
  rw [ruleLoop_eq, ruleSize_eq, hconfig, if_pos (by decide), Option.bind_eq_bind, Option.bind_some]
  exact congrArg (Option.bind · _) (congrArg (Option.map _) (readRow_driveForward hconfig hn))

theorem mem_ruleRow_connector {w : MainAlgWorker} {newmess : Newmess} (hactive : newmess 0 = 1)
    (hrobot : 0 < robot newmess ∧ robot newmess ≤ MAX_NUM_ROBOTS) :
    .sendToConnector (robot newmess) (rowMessage w.isPause newmess).generateByteArray ∈
      w.ruleRow newmess := by
  simp [ruleRow, hactive, hrobot]

theorem not_failSafe_driveForward (clock timerMax : Int) (config : RCConfig) (shutdowncomp : Bool)
    (readings : ClockReadings) (answer : StatusAnswer) :
    ∃ s log, Machine.run step (.new clock timerMax false config shutdowncomp)
      [.start oneRow, .run (driveForward 1 readings answer)] = some (s, log) ∧ ¬ FailSafe log := by
  let w : MainAlgWorker :=
    { MainAlgWorker.new clock timerMax false config shutdowncomp with
      config := oneRow, shutdowncomp := false }
  have hrun : w.run (driveForward 1 readings answer) = _ := run_driveForward rfl rfl (by decide)
  refine ⟨_, _, Machine.run_cons.mpr ⟨w, [], _, rfl, Machine.run_cons.mpr ⟨_, _, _, hrun, rfl, rfl⟩,
    rfl⟩, fun h => ?_⟩
  have hsent : _ ∈ w.ruleRow (forwardRow 1) := mem_ruleRow_connector rfl (by decide)
  have hmoves : Moves (.sendToConnector (robot (forwardRow 1))
      (rowMessage w.isPause (forwardRow 1)).generateByteArray) := by
    simp only [Moves, decode_generateByteArray]
    exact .inl (show column (forwardRow 1) 2 ≠ 0 by decide)
  have hearlier : FailSafe ([[]] ++ _ :: []) := h
  obtain ⟨answer, hlatest⟩ := hearlier.of_mem (by simp [hsent]) hmoves
  cases hlatest

/-- The robots are moved on the word of the latest poll in every run exactly
when `isPause` was set at construction. -/
theorem failSafe_iff (clock timerMax : Int) (isPause : Bool) (config : RCConfig)
    (shutdowncomp : Bool) :
    (∀ acts s log, Machine.run step (.new clock timerMax isPause config shutdowncomp) acts =
      some (s, log) → FailSafe log) ↔ isPause = true := by
  constructor
  · intro h
    refine Bool.eq_true_of_not_eq_false fun hpause => ?_
    subst hpause
    obtain ⟨s, log, hrun, hnot⟩ := not_failSafe_driveForward clock timerMax config shutdowncomp
      ⟨0, 0, 0, 0⟩ ⟨none, none⟩
    exact hnot (h _ s log hrun)
  · rintro rfl acts s log hrun
    have hinv : Informed s log := by
      refine Machine.run_invariant (I := Informed) ?_ (fun t outs a t' out ht hstep => ht.step hstep)
        hrun
      constructor
      · intro earlier events later before e after h
        simp at h
      · intro h
        cases h
    exact hinv.failSafe

theorem not_failSafe_first_call :
    ∃ s log, Machine.run step (.new 0 0 false oneRow false)
      [.start oneRow, .run (driveForward 1 ⟨0, 0, 0, 0⟩ ⟨none, none⟩)] = some (s, log) ∧
      ¬ FailSafe log :=
  not_failSafe_driveForward 0 0 oneRow false _ _

-- ---------------------------------------------------------------------------
-- The pause reaches everyone who was moving
-- ---------------------------------------------------------------------------

inductive Channel
  | connector (N : Int)
  | grSim (id : Int)
  deriving DecidableEq

structure Velocity where
  x : Double
  y : Double
  r : Double
  deriving DecidableEq

instance : Zero Velocity := ⟨0, 0, 0⟩

def velocityTo (c : Channel) : MainAlgEvent → Option Velocity
  | .sendToConnector N command =>
    if .connector N = c then
      some ⟨.ofInt (Frame.decode command).speedX.toInt, .ofInt (Frame.decode command).speedY.toInt,
        .ofInt (Frame.decode command).speedR.toInt⟩
    else none
  | .grSim velX velY velAngular _ _ id =>
    if .grSim id = c then some ⟨velX, velY, velAngular⟩ else none
  | _ => none

/-- On every channel on which a non-zero velocity was ever commanded, the last
velocity commanded is zero. -/
def PauseReaches (log : List MainAlgEvent) : Prop :=
  ∀ c, ∀ e ∈ log, ∀ v, velocityTo c e = some v → v ≠ 0 → Log.latest (velocityTo c) log = some 0

theorem PauseReaches.eq_zero {log : List MainAlgEvent} {c : Channel} {v : Velocity}
    (h : PauseReaches log) (hv : Log.latest (velocityTo c) log = some v) : v = 0 := by
  by_contra hne
  obtain ⟨e, he, hcommand⟩ := Log.exists_of_latest hv
  exact hne (Option.some.inj (hv.symm.trans (h c e he v hcommand hne)))

def Stoppable : Channel → Prop
  | .connector N => 1 ≤ N ∧ N ≤ 12
  | .grSim id => 0 ≤ id ∧ id ≤ 11

/-- An active row that names a robot beyond those the pause loop sends to has
no speed. -/
def Covered (newmess : Newmess) : Prop :=
  Active newmess → robot newmess ≤ 11 ∨ Still newmess

def RowsCovered (w : MainAlgWorker) (a : Act) : Prop :=
  ∀ call, a = .run call → w.shutdowncomp = false → w.isPause = false →
    ∀ newmess, w.Parses call newmess → Covered newmess

theorem velocityTo_sendToConnector {c : Channel} {N : Int} {msg : Message} {v : Velocity} :
    velocityTo c (.sendToConnector N msg.generateByteArray) = some v ↔
      c = .connector N ∧
        v = ⟨.ofInt msg.mSpeedX.toInt, .ofInt msg.mSpeedY.toInt, .ofInt msg.mSpeedR.toInt⟩ := by
  simp only [velocityTo, decode_generateByteArray]
  split <;> simp_all [eq_comm]

theorem velocityTo_grSim {c : Channel} {velX velY velAngular kickSpeedX kickSpeedY : Double} {id : Int}
    {v : Velocity} :
    velocityTo c (.grSim velX velY velAngular kickSpeedX kickSpeedY id) = some v ↔
      c = .grSim id ∧ v = ⟨velX, velY, velAngular⟩ := by
  simp only [velocityTo]
  split <;> simp_all [eq_comm]

theorem velocityTo_pauseLoop {c : Channel} {e : MainAlgEvent} {v : Velocity} (he : e ∈ pauseLoop)
    (hv : velocityTo c e = some v) : v = 0 := by
  obtain ⟨i, -, rfl | rfl⟩ := mem_pauseLoop.mp he
  · exact (velocityTo_sendToConnector.mp hv).2
  · exact (velocityTo_grSim.mp hv).2

theorem sent_pauseLoop {c : Channel} (hc : Stoppable c) :
    ∃ e ∈ pauseLoop, ∃ v, velocityTo c e = some v := by
  cases c with
  | connector N =>
    obtain ⟨hN, hN'⟩ := hc
    obtain ⟨i, rfl⟩ := Int.eq_ofNat_of_zero_le (Int.le_trans (by decide) hN)
    exact ⟨_, mem_pauseLoop.mpr ⟨i, by omega, .inl rfl⟩, _,
      velocityTo_sendToConnector.mpr ⟨rfl, rfl⟩⟩
  | grSim id =>
    obtain ⟨hid, hid'⟩ := hc
    obtain ⟨i, rfl⟩ := Int.eq_ofNat_of_zero_le hid
    exact ⟨_, mem_pauseLoop.mpr ⟨i + 1, by omega, .inr rfl⟩, _,
      velocityTo_grSim.mpr ⟨congrArg Channel.grSim (by omega), rfl⟩⟩

theorem latest_pauseLoop {c : Channel} (hc : Stoppable c) :
    Log.latest (velocityTo c) pauseLoop = some 0 := by
  obtain ⟨e, he, v, hv⟩ := sent_pauseLoop hc
  obtain ⟨v', hlatest⟩ := Log.exists_latest he hv
  obtain ⟨e', he', hv'⟩ := Log.exists_of_latest hlatest
  rw [hlatest, velocityTo_pauseLoop he' hv']

@[simp] theorem hundredth_eq_zero {c : CInt} : hundredth c = 0 ↔ c = 0 := by
  rw [← BitVec.toInt_inj]
  simp [hundredth, Double.zero_def]

theorem column_eq_zero {newmess : Newmess} {j : Fin 100} (h : newmess j = 0) :
    column newmess j = 0 := by
  rw [column, h]
  rfl

theorem stoppable_of_ruleRow {w : MainAlgWorker} {newmess : Newmess} {c : Channel} {e : MainAlgEvent}
    {v : Velocity} (hcovered : w.isPause = false → Covered newmess) (he : e ∈ w.ruleRow newmess)
    (hv : velocityTo c e = some v) (hne : v ≠ 0) : Stoppable c := by
  obtain ⟨hactive, hcommand⟩ := rowCommand_of_mem he
  cases hcommand with
  | forward => cases hv
  | single hpause hrobot =>
    obtain ⟨rfl, rfl⟩ := velocityTo_grSim.mp hv
    obtain hle | ⟨h2, h3, h5⟩ := hcovered hpause hactive
    · exact ⟨Int.le_of_lt hrobot, hle⟩
    · rw [column_eq_zero h2, column_eq_zero h3, column_eq_zero h5, hundredth_eq_zero.mpr rfl] at hne
      exact absurd rfl hne
  | all hi hi' =>
    obtain ⟨rfl, -⟩ := velocityTo_grSim.mp hv
    simp only [MAX_NUM_ROBOTS] at hi'
    exact ⟨by omega, by omega⟩
  | connector hN hN' =>
    obtain ⟨rfl, -⟩ := velocityTo_sendToConnector.mp hv
    simp only [MAX_NUM_ROBOTS] at hN'
    exact ⟨hN, by omega⟩

/-- Non-zero velocities went only where the pause loop sends; while the robots
are paused the last velocity on each of these channels is zero. -/
structure Reached (w : MainAlgWorker) (log : List MainAlgEvent) : Prop where
  stoppable : ∀ c, ∀ e ∈ log, ∀ v, velocityTo c e = some v → v ≠ 0 → Stoppable c
  paused : w.isPause = true → ∀ c, Stoppable c → ∀ v, Log.latest (velocityTo c) log = some v → v = 0

theorem Reached.pauseReaches {w : MainAlgWorker} {log : List MainAlgEvent} (h : Reached w log)
    (hpause : w.isPause = true) : PauseReaches log := by
  intro c e he v hv hne
  obtain ⟨v', hlatest⟩ := Log.exists_latest he hv
  rw [hlatest, h.paused hpause c (h.stoppable c e he v hv hne) v' hlatest]

theorem velocityTo_callMatlab {w : MainAlgWorker} {packetssl : PacketSSL} {c : Channel}
    {e : MainAlgEvent} (he : e ∈ w.callMatlab packetssl) : velocityTo c e = none := by
  simp only [callMatlab, List.mem_cons, List.not_mem_nil, or_false] at he
  rcases he with rfl | rfl | rfl | rfl <;> rfl

theorem velocityTo_status {w w' : MainAlgWorker} {clock : ClockReadings} {answer : StatusAnswer}
    {polled : List MainAlgEvent} (h : w.status clock answer = (w', polled)) {c : Channel}
    {e : MainAlgEvent} (he : e ∈ polled) : velocityTo c e = none := by
  obtain ⟨-, rfl⟩ | ⟨-, text, rfl⟩ := status_cases h
  · cases he
  · simp only [List.mem_cons, List.not_mem_nil, or_false] at he
    rcases he with rfl | rfl | rfl | rfl <;> rfl

theorem Reached.run {w w' : MainAlgWorker} {call : Call} {events log : List MainAlgEvent}
    (h : w.run call = some (w', events)) (hrows : RowsCovered w (.run call)) (hw : Reached w log) :
    Reached w' (log ++ events) := by
  obtain ⟨-, rfl, rfl⟩ | ⟨hup, commands, polled, hcommands, hstatus, rfl⟩ := run_cases h
  · simpa using hw
  constructor
  · intro c e he v hv hne
    simp only [List.mem_append, List.mem_cons, List.not_mem_nil, or_false] at he
    obtain he | (he | rfl | he) | (he | he) | rfl := he
    · exact hw.stoppable c e he v hv hne
    · rw [velocityTo_callMatlab he] at hv
      cases hv
    · cases hv
    · obtain ⟨newmess, hparses, he⟩ := hcommands e he
      exact stoppable_of_ruleRow (fun hpause => hrows call rfl hup hpause newmess hparses) he hv hne
    · rw [velocityTo_status hstatus he] at hv
      cases hv
    · split at he
      · exact absurd (velocityTo_pauseLoop he hv) hne
      · cases he
    · cases hv
  · intro hpause c hc v hv
    simp [hpause, latest_pauseLoop hc, velocityTo] at hv
    exact hv.symm

def driveThenPause (n : Int) : List Act :=
  [.start oneRow, .run (driveForward n ⟨0, 0, 1001, 1001⟩ ⟨some (some 0), some (some (.ofInt 1))⟩),
    .run (driveForward n ⟨1001, 1001, 2002, 2002⟩ ⟨some (some (.ofInt 1)), none⟩)]

/-- A pause reaches every robot that was moved, in every run whose rows are
covered. -/
theorem pauseReaches_of_rowsCovered (clock timerMax : Int) (isPause : Bool) (config : RCConfig)
    (shutdowncomp : Bool) (acts : List Act) (s : MainAlgWorker) (log : List (List MainAlgEvent))
    (h : Machine.run step (.new clock timerMax isPause config shutdowncomp) acts = some (s, log))
    (hrows : Machine.Always step RowsCovered (.new clock timerMax isPause config shutdowncomp) acts)
    (hpause : s.isPause = true) : PauseReaches log.flatten := by
  have hinv : Reached s log.flatten := by
    refine Machine.run_invariant_of (I := fun s log => Reached s log.flatten) (C := RowsCovered)
      ?_ ?_ hrows h
    · exact ⟨fun c e he => (List.not_mem_nil he).elim, fun _ c _ v hv => by cases hv⟩
    · intro t outs a t' out ht ha hstep
      rw [List.flatten_append, List.flatten_singleton]
      cases a with
      | run call => exact ht.run hstep ha
      | start | stop | send2BTChangeit =>
        cases hstep
        simpa using ⟨ht.stoppable, ht.paused⟩
  exact hinv.pauseReaches hpause

theorem pauseReaches_of_rowsCovered_robot_three :
    ∃ s log, Machine.run step (.new 0 0 true oneRow false) (driveThenPause 3) = some (s, log) ∧
      s.isPause = true ∧ PauseReaches log.flatten := by
  have hrun : Machine.run step (.new 0 0 true oneRow false) (driveThenPause 3) = some (_, _) :=
    Machine.run_cons.mpr ⟨_, _, _, rfl, Machine.run_cons.mpr ⟨_, _, _,
      run_driveForward rfl rfl (by decide), Machine.run_cons.mpr ⟨_, _, _,
      run_driveForward rfl rfl (by decide), rfl, rfl⟩, rfl⟩, rfl⟩
  refine ⟨_, _, hrun, rfl, pauseReaches_of_rowsCovered 0 0 true oneRow false _ _ _ hrun ?_ rfl⟩
  have hcovered (w : MainAlgWorker) (hconfig : w.config = oneRow) (clock : ClockReadings)
      (answer : StatusAnswer) : RowsCovered w (.run (driveForward 3 clock answer)) := by
    rintro _ hcall - - newmess ⟨rules, i, hrules, hi, hrow⟩
    cases hcall
    cases hrules
    rw [hconfig] at hi
    obtain rfl : i = 0 := Nat.lt_one_iff.mp hi
    cases hrow.symm.trans (readRow_driveForward hconfig (by decide))
    exact fun _ => .inl (by decide)
  refine .cons (by rintro _ ⟨⟩) fun t out h => ?_
  cases h
  refine .cons (hcovered _ rfl _ _) fun t out h => ?_
  cases h.symm.trans (run_driveForward rfl rfl (by decide))
  refine .cons (hcovered _ rfl _ _) fun t out h => ?_
  exact .nil

theorem not_pauseReaches_robot_twelve :
    ∃ s log, Machine.run step (.new 0 0 true oneRow false) (driveThenPause 12) = some (s, log) ∧
      s.isPause = true ∧ ¬ PauseReaches log.flatten := by
  refine ⟨_, _, Machine.run_cons.mpr ⟨_, _, _, rfl, Machine.run_cons.mpr ⟨_, _, _,
    run_driveForward rfl rfl (by decide), Machine.run_cons.mpr ⟨_, _, _,
    run_driveForward rfl rfl (by decide), rfl, rfl⟩, rfl⟩, rfl⟩, rfl, fun h => ?_⟩
  have hzero := h.eq_zero (c := .grSim 12) (v := ⟨hundredth 100, hundredth 0, hundredth 0⟩) rfl
  have hx : hundredth 100 = 0 := congrArg Velocity.x hzero
  exact absurd (hundredth_eq_zero.mp hx) (by decide)

end LARCmaCS.MainAlgWorker
