import Mathlib.Algebra.Group.Int.Defs
import Mathlib.Algebra.Group.Nat.Defs
import Mathlib.Data.Fin.Basic
import LARCmaCS.Lib.Loop
import LARCmaCS.CommandData
import LARCmaCS.PacketSSL

/-!
# The main algorithm

`MainAlgWorker::run` of `mainAlg.cpp`: it hands a packet to Matlab, takes the
matrix `Rules` back, turns each active row into commands on two channels (the
connector and grSim) and polls once a second whether the robots may move. A
call's inputs are the packet, the clock readings and what Matlab answers; its
outputs are the signals and calls it makes, in order. What the language leaves
undefined (a null matrix, an `int` that overflows, a rule longer than its
buffer) has no result.
-/

namespace LARCmaCS

-- ---------------------------------------------------------------------------
-- State, inputs and outputs
-- ---------------------------------------------------------------------------

def MAX_NUM_ROBOTS : Nat := 4

structure RCConfig where
  fileOfMatlab : String
  ruleAmount : Int
  ruleLength : Int

structure MainAlgWorker where
  timerS : Int
  timerM : Int
  timerMax : Int
  timeCount : Int
  send2BT : Fin MAX_NUM_ROBOTS → Bool
  isPause : Bool
  config : RCConfig
  shutdowncomp : Bool

/-- The constructor at clock reading `clock`. It leaves the other fields as
they were in memory. -/
def MainAlgWorker.new (clock timerMax : Int) (isPause : Bool) (config : RCConfig)
    (shutdowncomp : Bool) : MainAlgWorker where
  timerS := 0
  timerM := clock
  timerMax
  timeCount := 0
  send2BT := fun _ => true
  isPause
  config
  shutdowncomp

/-- What Matlab answers to the status poll: the pointer `engGetVariable`
returns, the pointer `mxGetPr` returns, the value it points to. -/
structure StatusAnswer where
  ispause : Option (Option Double)
  zMainEnd : Option (Option Double)

abbrev Newmess := Fin 100 → CChar

/-- The readings of `clock()`: on entry, after the rules, in the test for a
new second, and in its branch. -/
structure ClockReadings where
  entry : Int
  rules : Int
  test : Int
  branch : Int

structure Call where
  packetssl : PacketSSL
  clock : ClockReadings
  /-- The matrix `Rules`, column by column, if Matlab has it. -/
  rules : Option (Option (Nat → Double))
  /-- What `newmess` holds before row `i` is copied into it. -/
  stack : Nat → Newmess
  status : StatusAnswer

/-- The signals and calls of a run; `statusPoll` marks the poll, with what
Matlab answers to it. -/
inductive MainAlgEvent
  | engPutVariable (name : String) (values : List Double)
  | engEvalString (s : String)
  | sendToBTtransmitter (message : Newmess)
  | grSim (velX velY velAngular kickSpeedX kickSpeedY : Double) (id : Int)
  | sendToConnector (N : Int) (command : QByteArray)
  | statusMessage (message : String)
  | statusPoll (answer : StatusAnswer)
  | updatePauseState (message : String)
  | mainAlgFree

-- ---------------------------------------------------------------------------
-- Memory
-- ---------------------------------------------------------------------------

def mulInt (a b : Int) : Option Int :=
  if -2 ^ 31 ≤ a * b ∧ a * b < 2 ^ 31 then some (a * b) else none

/-- `n * sizeof(double)`, a `size_t`. -/
def sizeOfDoubles (n : Int) : Nat := (n * 8 % 2 ^ 64).toNat

/-- `malloc`: it can give out anything less than half of the address space. -/
def malloc (bytes : Nat) : Option Nat := if bytes < 2 ^ 63 then some bytes else none

theorem sizeOfDoubles_of_nonneg {n : Int} (h : 0 ≤ n) (hn : n < 2 ^ 31) :
    sizeOfDoubles n = 8 * n.toNat := by
  unfold sizeOfDoubles
  omega

theorem le_sizeOfDoubles_of_neg {n : Int} (h : n < 0) (hn : -2 ^ 31 ≤ n) :
    2 ^ 63 ≤ sizeOfDoubles n := by
  unfold sizeOfDoubles
  omega

/-- The cells of a row; `none` has not been written. -/
abbrev Cells := Nat → Option CChar

def writeCell (newmess : Cells) (j : Nat) (c : CChar) : Option Cells :=
  if j < 100 then some (Function.update newmess j (some c)) else none

/-- `memcpy(newmessage, newmess, 100)`, which reads every cell. -/
def copyCells (newmess : Cells) : Option Newmess :=
  if (List.range 100).all fun j => (newmess j).isSome then some fun j => (newmess j).getD 0
  else none

def held (stack : Newmess) : Cells := fun j => if h : j < 100 then some (stack ⟨j, h⟩) else none

theorem held_fin (stack : Newmess) (j : Fin 100) : held stack j = some (stack j) := dif_pos j.isLt

theorem copyCells_of_written {newmess : Cells} {row : Newmess}
    (h : ∀ j : Fin 100, newmess j = some (row j)) : copyCells newmess = some row := by
  have hall : (List.range 100).all fun j => (newmess j).isSome := by
    refine List.all_eq_true.mpr fun j hj => ?_
    rw [h ⟨j, List.mem_range.mp hj⟩]
    rfl
  rw [copyCells, if_pos hall]
  refine congrArg some (funext fun j => ?_)
  rw [h j]
  rfl

namespace MainAlgWorker

-- ---------------------------------------------------------------------------
-- Rows
-- ---------------------------------------------------------------------------

/-- The doubles that `ruleArray` has room for. -/
def ruleSize (w : MainAlgWorker) : Option Nat := do
  let n ← mulInt w.config.ruleAmount w.config.ruleLength
  let bytes ← malloc (sizeOfDoubles n)
  some (bytes / 8)

open Classical in
theorem ruleSize_eq (w : MainAlgWorker) :
    w.ruleSize =
      if 0 ≤ w.config.ruleAmount * w.config.ruleLength ∧
          w.config.ruleAmount * w.config.ruleLength < 2 ^ 31 then
        some (w.config.ruleAmount * w.config.ruleLength).toNat
      else none := by
  unfold ruleSize mulInt malloc
  generalize w.config.ruleAmount * w.config.ruleLength = n
  by_cases hint : -2 ^ 31 ≤ n ∧ n < 2 ^ 31
  · rw [if_pos hint, Option.bind_eq_bind, Option.bind_some]
    by_cases hneg : n < 0
    · have hbytes := le_sizeOfDoubles_of_neg hneg hint.1
      rw [if_neg (by omega), if_neg (by omega)]
      rfl
    · have hbytes := sizeOfDoubles_of_nonneg (not_lt.mp hneg) hint.2
      have hquot : sizeOfDoubles n / 8 = n.toNat := by omega
      rw [if_pos (by omega), if_pos (by omega), Option.bind_eq_bind, Option.bind_some, hquot]
  · rw [if_neg hint, if_neg (by omega)]
    rfl

theorem index_lt_mul {amount length : Int} {i j : Nat} (hi : i < amount.toNat)
    (hj : j < length.toNat) : j * amount.toNat + i < (amount * length).toNat := by
  calc j * amount.toNat + i < j * amount.toNat + amount.toNat := by omega
    _ = (j + 1) * amount.toNat := (Nat.succ_mul j _).symm
    _ ≤ length.toNat * amount.toNat := Nat.mul_le_mul_right _ hj
    _ = (amount * length).toNat := by rw [Int.toNat_mul (by omega) (by omega), Nat.mul_comm]

/-- The index of a cell is an `int` wherever the size of `ruleArray` is one. -/
theorem index_lt_ruleSize {w : MainAlgWorker} {n : Nat} (h : w.ruleSize = some n) {i j : Nat}
    (hi : i < w.config.ruleAmount.toNat) (hj : j < w.config.ruleLength.toNat) :
    j * w.config.ruleAmount.toNat + i < n ∧ n < 2 ^ 31 := by
  rw [ruleSize_eq] at h
  split at h
  · rename_i hsize
    cases h
    exact ⟨index_lt_mul hi hj, by omega⟩
  · cases h

/-- Row `i` of the rules, written over `newmess`. The loop comes here with a
size of `ruleArray`, so that the index is an `int` (`index_lt_ruleSize`). -/
def readCells (w : MainAlgWorker) (ruleArray : Nat → Option Double) (newmess : Cells) (i : Nat) :
    Option Cells :=
  (List.range w.config.ruleLength.toNat).foldlM
    (fun newmess j => do
      let x ← ruleArray (j * w.config.ruleAmount.toNat + i)
      writeCell newmess j x.toChar)
    newmess

theorem readCells_eq (w : MainAlgWorker) (ruleArray : Nat → Option Double) (newmess : Cells)
    (i : Nat) :
    w.readCells ruleArray newmess i =
      if ∀ j < w.config.ruleLength.toNat,
          j < 100 ∧ (ruleArray (j * w.config.ruleAmount.toNat + i)).isSome then
        some fun j => if j < w.config.ruleLength.toNat then
          (ruleArray (j * w.config.ruleAmount.toNat + i)).map Double.toChar else newmess j
      else none := by
  rw [readCells]
  induction w.config.ruleLength.toNat with
  | zero => rfl
  | succ n ih =>
    rw [Loop.foldlM_succ, ih]
    by_cases hbefore : ∀ j < n, j < 100 ∧ (ruleArray (j * w.config.ruleAmount.toNat + i)).isSome
    · rw [if_pos hbefore, Option.bind_eq_bind, Option.bind_some]
      cases hx : ruleArray (n * w.config.ruleAmount.toNat + i) with
      | none =>
        rw [if_neg fun hall => by simpa [hx] using (hall n n.lt_succ_self).2]
        rfl
      | some x =>
        rw [Option.bind_eq_bind, Option.bind_some, writeCell]
        by_cases hn : n < 100
        · have hall : ∀ j < n + 1,
              j < 100 ∧ (ruleArray (j * w.config.ruleAmount.toNat + i)).isSome := by
            intro j hj
            rcases Nat.lt_succ_iff_lt_or_eq.mp hj with hj | rfl
            · exact hbefore j hj
            · exact ⟨hn, by rw [hx]; rfl⟩
          rw [if_pos hn, if_pos hall]
          refine congrArg some (funext fun j => ?_)
          rcases eq_or_ne j n with rfl | hj
          · rw [Function.update_self, if_pos j.lt_succ_self, hx]
            rfl
          · rw [Function.update_of_ne hj]
            simp only [show j < n + 1 ↔ j < n by omega]
        · rw [if_neg hn, if_neg fun hall => hn (hall n n.lt_succ_self).1]
    · rw [if_neg hbefore, if_neg fun hall => hbefore fun j hj => hall j (Nat.lt_succ_of_lt hj)]
      rfl

def readRow (w : MainAlgWorker) (ruleArray : Nat → Double) (stack : Newmess) (i : Nat) :
    Option Newmess :=
  w.readCells (fun k => some (ruleArray k)) (held stack) i >>= copyCells

theorem written_of_readCells {w : MainAlgWorker} {ruleArray : Nat → Double} {stack : Newmess} {i : Nat}
    {cells : Cells} (h : w.readCells (fun k => some (ruleArray k)) (held stack) i = some cells)
    (j : Fin 100) :
    cells j = some (if (j : Nat) < w.config.ruleLength.toNat then
      (ruleArray (j * w.config.ruleAmount.toNat + i)).toChar else stack j) := by
  rw [readCells_eq] at h
  split at h
  · cases h
    simp only [held_fin]
    split <;> rfl
  · cases h

theorem readRow_of_le {w : MainAlgWorker} (h : w.config.ruleLength ≤ 100) (ruleArray : Nat → Double)
    (stack : Newmess) (i : Nat) :
    w.readRow ruleArray stack i = some fun (j : Fin 100) =>
      if (j : Nat) < w.config.ruleLength.toNat then
        (ruleArray (j * w.config.ruleAmount.toNat + i)).toChar
      else stack j := by
  have hcells := w.readCells_eq (fun k => some (ruleArray k)) (held stack) i
  rw [if_pos fun j hj => ⟨by omega, rfl⟩] at hcells
  rw [readRow, hcells, Option.bind_eq_bind, Option.bind_some]
  exact copyCells_of_written (written_of_readCells hcells)

def column (newmess : Newmess) (j : Fin 100) : CInt := (newmess j).signExtend 32

def robot (newmess : Newmess) : Int := (column newmess 1).toInt

def addressed (newmess : Newmess) (i : Nat) : Newmess :=
  Function.update newmess 1 (BitVec.ofNat 8 i)

def Still (newmess : Newmess) : Prop := newmess 2 = 0 ∧ newmess 3 = 0 ∧ newmess 5 = 0

def Idle (newmess : Newmess) : Prop :=
  newmess 2 = 0 ∧ newmess 3 = 0 ∧ newmess 4 = 0 ∧ newmess 5 = 0

def forwardsToBT (w : MainAlgWorker) (n : Int) : Bool :=
  if h : 1 ≤ n ∧ n ≤ MAX_NUM_ROBOTS then w.send2BT ⟨(n - 1).toNat, by omega⟩ else n = 0

def rowMessage (isPause : Bool) (newmess : Newmess) : Message :=
  let msg := (({} : Message).setKickVoltageLevel 12).setKickerChargeEnable 1
  if isPause then
    (((msg.setSpeedX 0).setSpeedY 0).setSpeedR 0).setKickForward 0
  else
    (((msg.setSpeedX (column newmess 2)).setSpeedY (column newmess 3)).setSpeedR
      (column newmess 5)).setKickForward (column newmess 4)

/-- `c / 100.0`, taken exact. -/
def hundredth (c : CInt) : Double := .finite (c.toInt / 100)

def singleCommand (isPause : Bool) (newmess : Newmess) : List MainAlgEvent :=
  if isPause = false ∧ 0 < robot newmess then
    [.grSim (hundredth (column newmess 2)) (hundredth (column newmess 3))
      (hundredth (column newmess 5)) 0 0 (robot newmess)]
  else []

def broadcastCommand (msg : Message) (i : Nat) : List MainAlgEvent :=
  [.grSim (.ofInt msg.getSpeedX.toInt) (.ofInt msg.getSpeedY.toInt) (.ofInt msg.getSpeedR.toInt)
      (.ofInt (5 * msg.getKickForward).toInt) (.ofInt (5 * msg.getKickUp).toInt) i,
    .sendToConnector i msg.generateByteArray]

def Active (newmess : Newmess) : Prop := newmess 0 = 1

def ruleRow (w : MainAlgWorker) (newmess : Newmess) : List MainAlgEvent :=
  if newmess 0 = 1 then
    let n := robot newmess
    let msg := rowMessage w.isPause newmess
    (if w.forwardsToBT n then [.sendToBTtransmitter newmess] else []) ++
      singleCommand w.isPause newmess ++
      (if n = 0 then (List.range' 1 MAX_NUM_ROBOTS).flatMap (broadcastCommand msg) else []) ++
      (if 0 < n ∧ n ≤ MAX_NUM_ROBOTS then [.sendToConnector n msg.generateByteArray] else [])
  else []

/-- A row as it was copied: its first cell is read, and all of them if it is
active. -/
def ruleCells (w : MainAlgWorker) (newmess : Cells) : Option (List MainAlgEvent) := do
  let active ← newmess 0
  if active = 1 then (copyCells newmess).map w.ruleRow else some []

-- ---------------------------------------------------------------------------
-- The rule loop
-- ---------------------------------------------------------------------------

/-- The loop over the rows, the cells of row `i` holding `newmess i` before. -/
def rows (w : MainAlgWorker) (ruleArray : Nat → Option Double) (newmess : Nat → Cells) :
    Option (List MainAlgEvent) :=
  (List.range w.config.ruleAmount.toNat).foldlM
    (fun events i => (w.readCells ruleArray (newmess i) i >>= w.ruleCells).map (events ++ ·)) []

/-- The rule loop, with what the stack holds in the cells of a row that it does
not write. -/
def ruleLoop (w : MainAlgWorker) (ruleArray : Nat → Double) (stack : Nat → Newmess) :
    Option (List MainAlgEvent) := do
  let _ ← w.ruleSize
  w.rows (fun k => some (ruleArray k)) fun i => held (stack i)

theorem ruleCells_of_written {w : MainAlgWorker} {newmess : Cells} {row : Newmess}
    (h : ∀ j : Fin 100, newmess j = some (row j)) : w.ruleCells newmess = some (w.ruleRow row) := by
  have hfirst : newmess 0 = some (row 0) := h 0
  rw [ruleCells, hfirst, Option.bind_eq_bind, Option.bind_some, copyCells_of_written h,
    Option.map_some, ruleRow]
  split <;> rfl

theorem ruleCells_readCells (w : MainAlgWorker) (ruleArray : Nat → Double) (stack : Newmess)
    (i : Nat) :
    (w.readCells (fun k => some (ruleArray k)) (held stack) i >>= w.ruleCells) =
      (w.readRow ruleArray stack i).map w.ruleRow := by
  rw [readRow]
  cases hcells : w.readCells (fun k => some (ruleArray k)) (held stack) i with
  | none => rfl
  | some cells =>
    have hwritten := written_of_readCells hcells
    rw [Option.bind_eq_bind, Option.bind_some, Option.bind_eq_bind, Option.bind_some,
      ruleCells_of_written hwritten, copyCells_of_written hwritten]
    rfl

theorem ruleLoop_eq (w : MainAlgWorker) (ruleArray : Nat → Double) (stack : Nat → Newmess) :
    w.ruleLoop ruleArray stack = w.ruleSize >>= fun _ =>
      (List.range w.config.ruleAmount.toNat).foldlM
        (fun events i =>
          (w.readRow ruleArray (stack i) i).map fun newmess => events ++ w.ruleRow newmess) [] := by
  simp only [ruleLoop, rows, ruleCells_readCells, Option.map_map]
  rfl

-- ---------------------------------------------------------------------------
-- The status poll
-- ---------------------------------------------------------------------------

def pauseState (answer : StatusAnswer) : Bool × String :=
  match answer.ispause with
  | none => (true, "-err-mp")
  | some none => (true, "-err-p")
  | some (some itpause) =>
    if itpause.eqInt 0 then
      match answer.zMainEnd with
      | none => (true, "-err-mz")
      | some none => (true, "-err-z")
      | some (some zMainEnd) => if zMainEnd.eqInt 0 then (true, "main br") else (false, "WORK")
    else (true, "PAUSE")

def clocksPerSec : Int := 1000

def account (w : MainAlgWorker) (clock : ClockReadings) : MainAlgWorker :=
  let timerC := clock.rules - clock.entry
  { w with
    timeCount := w.timeCount + 1
    timerMax := if timerC > w.timerMax then timerC else w.timerMax
    timerS := w.timerS + timerC }

/-- Once a second the statistics are reported and Matlab is polled. -/
def status (w : MainAlgWorker) (clock : ClockReadings) (answer : StatusAnswer) :
    MainAlgWorker × List MainAlgEvent :=
  if clock.test - w.timerM > clocksPerSec then
    let text := "Using Matlab: Count=" ++ toString w.timeCount ++
      " ~time=" ++ toString (w.timerS.tdiv w.timeCount) ++
      " maxtime=" ++ toString w.timerMax ++ " fulltime=" ++ toString w.timerS
    ({ w with
        timerM := clock.branch
        timerS := 0
        timerMax := 0
        timeCount := 0
        isPause := (pauseState answer).1 },
      [.statusMessage text, .engEvalString "ispause=RP.Pause", .statusPoll answer,
        .updatePauseState (pauseState answer).2])
  else (w, [])

-- ---------------------------------------------------------------------------
-- The run
-- ---------------------------------------------------------------------------

def pauseMessage : Message :=
  let msg := (({} : Message).setKickVoltageLevel 12).setKickerChargeEnable 1
  (((msg.setSpeedX 0).setSpeedY 0).setSpeedR 0).setKickForward 0

def pauseLoop : List MainAlgEvent :=
  (List.range' 1 12).flatMap fun (i : Nat) =>
    [.sendToConnector i pauseMessage.generateByteArray, .grSim 0 0 0 0 0 (i - 1)]

def callMatlab (w : MainAlgWorker) (packetssl : PacketSSL) : List MainAlgEvent :=
  [.engPutVariable "Balls" (List.ofFn packetssl.balls),
    .engPutVariable "Blues" (List.ofFn packetssl.robotsBlue),
    .engPutVariable "Yellows" (List.ofFn packetssl.robotsYellow),
    .engEvalString w.config.fileOfMatlab]

def clearRules (w : MainAlgWorker) : String :=
  "Rules=zeros(" ++ toString w.config.ruleAmount ++ ", " ++ toString w.config.ruleLength ++ ");"

/-- The local copy of the rules: zeros if Matlab has no such variable, no
result if the variable has no data. -/
def ruleArray (rules : Option (Option (Nat → Double))) : Option (Nat → Double) :=
  match rules with
  | none => some fun _ => 0
  | some pr? => pr?

/-- `MainAlgWorker::run`. Slots that its `processEvents` call delivers take
effect as the steps that follow. -/
def run (w : MainAlgWorker) (call : Call) : Option (MainAlgWorker × List MainAlgEvent) :=
  if w.shutdowncomp then some (w, [])
  else do
    let rules ← ruleArray call.rules
    let commands ← w.ruleLoop rules call.stack
    let (w', polled) := (w.account call.clock).status call.clock call.status
    some (w', w.callMatlab call.packetssl ++ .engEvalString w.clearRules :: commands ++ polled ++
      (if w'.isPause then pauseLoop else []) ++ [.mainAlgFree])

-- ---------------------------------------------------------------------------
-- The slots of the worker's thread
-- ---------------------------------------------------------------------------

inductive Act
  | start (config : RCConfig)
  | stop
  | send2BTChangeit (send2BT : Fin MAX_NUM_ROBOTS → Bool)
  | run (call : Call)

def step (w : MainAlgWorker) : Act → Option (MainAlgWorker × List MainAlgEvent)
  | .start config => some ({ w with shutdowncomp := false, config }, [])
  | .stop => some ({ w with shutdowncomp := true }, [])
  | .send2BTChangeit send2BT => some ({ w with send2BT }, [])
  | .run call => w.run call

end MainAlgWorker

end LARCmaCS
