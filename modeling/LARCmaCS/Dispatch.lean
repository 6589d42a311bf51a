import LARCmaCS.Lib.Log
import LARCmaCS.MainAlg

/-!
# Rule dispatch

What the rule loop sends to the connector. `ruleLoop_eq_flatMap`: the loop
emits what its rows give rise to, in order. For a matrix of integers in the
range of `char`, every active row sends its own speeds and kick to the robots
it addresses, and the last such row is the last word to a robot
(`ruleLoop_dispatch`).
-/

namespace LARCmaCS.MainAlgWorker

-- ---------------------------------------------------------------------------
-- The rows of the loop
-- ---------------------------------------------------------------------------

def row (w : MainAlgWorker) (ruleArray : Nat → Double) (stack : Nat → Newmess) (i : Nat) : Newmess :=
  fun j => if (j : Nat) < w.config.ruleLength.toNat then
    (ruleArray (j * w.config.ruleAmount.toNat + i)).toChar else stack i j

theorem row_of_lt {w : MainAlgWorker} {j : Fin 100} (hj : (j : Int) < w.config.ruleLength)
    (ruleArray : Nat → Double) (stack : Nat → Newmess) (i : Nat) :
    w.row ruleArray stack i j = (ruleArray (j * w.config.ruleAmount.toNat + i)).toChar :=
  if_pos (by omega)

theorem ruleLoop_eq_flatMap {w : MainAlgWorker} (hlength : w.config.ruleLength ≤ 100)
    (hsize : 0 ≤ w.config.ruleAmount * w.config.ruleLength ∧
      w.config.ruleAmount * w.config.ruleLength < 2 ^ 31)
    (ruleArray : Nat → Double) (stack : Nat → Newmess) :
    w.ruleLoop ruleArray stack =
      some ((List.range w.config.ruleAmount.toNat).flatMap fun i =>
        w.ruleRow (w.row ruleArray stack i)) := by
  rw [ruleLoop_eq, ruleSize_eq, if_pos hsize, Option.bind_eq_bind, Option.bind_some]
  induction w.config.ruleAmount.toNat with
  | zero => rfl
  | succ n ih =>
    rw [Loop.foldlM_succ, ih, List.range_succ, List.flatMap_append, List.flatMap_singleton]
    simp only [readRow_of_le hlength, Option.bind_eq_bind, Option.bind_some, Option.map_some]
    rfl

-- ---------------------------------------------------------------------------
-- What reaches the connector
-- ---------------------------------------------------------------------------

def connector? : MainAlgEvent → Option (Int × QByteArray)
  | .sendToConnector N command => some (N, command)
  | _ => none

/-- The robots that a robot column of `n` addresses. -/
def addressees (n : Int) : List Int :=
  if n = 0 then (List.range' 1 MAX_NUM_ROBOTS).map Nat.cast
  else if 1 ≤ n ∧ n ≤ MAX_NUM_ROBOTS then [n] else []

theorem connector?_ruleRow (w : MainAlgWorker) (newmess : Newmess) :
    (w.ruleRow newmess).filterMap connector? =
      if newmess 0 = 1 then
        (addressees (robot newmess)).map (·, (rowMessage w.isPause newmess).generateByteArray)
      else [] := by
  have hbt (b : Bool) :
      (if b then [MainAlgEvent.sendToBTtransmitter newmess] else []).filterMap connector? = [] := by
    cases b <;> rfl
  have hsingle : (singleCommand w.isPause newmess).filterMap connector? = [] := by
    rw [singleCommand]
    split <;> rfl
  unfold ruleRow
  split
  · rw [List.filterMap_append, List.filterMap_append, List.filterMap_append, hbt, hsingle]
    unfold addressees
    by_cases hzero : robot newmess = 0
    · simp only [hzero, if_true]
      rfl
    · by_cases hn : 0 < robot newmess ∧ robot newmess ≤ MAX_NUM_ROBOTS
      · have hn' : 1 ≤ robot newmess ∧ robot newmess ≤ MAX_NUM_ROBOTS := hn
        rw [if_neg hzero, if_pos hn, if_neg hzero, if_pos hn']
        rfl
      · have hn' : ¬ (1 ≤ robot newmess ∧ robot newmess ≤ MAX_NUM_ROBOTS) := hn
        rw [if_neg hzero, if_neg hn, if_neg hzero, if_neg hn']
        rfl
  · rfl

theorem mem_addressees {N n : Int} :
    N ∈ addressees n ↔ (1 ≤ N ∧ N ≤ MAX_NUM_ROBOTS) ∧ (n = 0 ∨ n = N) := by
  unfold addressees
  split
  · rename_i hzero
    simp only [List.mem_map, List.mem_range'_1, hzero, true_or, and_true]
    constructor
    · rintro ⟨i, hi, rfl⟩
      omega
    · intro hN
      exact ⟨N.toNat, by omega, by omega⟩
  · rename_i hzero
    split
    · rw [List.mem_singleton]
      omega
    · simp only [List.not_mem_nil, false_iff]
      omega

-- ---------------------------------------------------------------------------
-- What a frame asks for
-- ---------------------------------------------------------------------------

structure RobotCommand where
  speedX : Int
  speedY : Int
  speedR : Int
  kickForward : Int
  deriving DecidableEq

/-- The speeds and the kick that a frame decodes to; the kick is a `quint8`. -/
def RobotCommand.ofFrame (command : QByteArray) : RobotCommand where
  speedX := (Frame.decode command).speedX.toInt
  speedY := (Frame.decode command).speedY.toInt
  speedR := (Frame.decode command).speedR.toInt
  kickForward := (Frame.decode command).kickForward.toNat

theorem toInt_column (newmess : Newmess) (j : Fin 100) :
    (column newmess j).toInt = (newmess j).toInt :=
  BitVec.toInt_signExtend_of_le (by decide)

theorem ofFrame_rowMessage (isPause : Bool) (newmess : Newmess) :
    RobotCommand.ofFrame (rowMessage isPause newmess).generateByteArray =
      if isPause then ⟨0, 0, 0, 0⟩
      else ⟨(newmess 2).toInt, (newmess 3).toInt, (newmess 5).toInt, (newmess 4).toNat⟩ := by
  have hkick : (column newmess 4).setWidth 8 = newmess 4 := by
    refine BitVec.eq_of_getLsbD_eq fun i hi => ?_
    rw [column, BitVec.getLsbD_setWidth, BitVec.getLsbD_signExtend, if_pos hi]
    simp [hi, show i < 32 by omega]
  rw [RobotCommand.ofFrame, decode_generateByteArray]
  cases isPause with
  | false => simp [rowMessage, Message.setSpeedX, Message.setSpeedY, Message.setSpeedR,
      Message.setKickForward, toInt_column, hkick]
  | true => rfl

-- ---------------------------------------------------------------------------
-- Matrices of integers
-- ---------------------------------------------------------------------------

/-- The matrix `Rules`: rows of integers in the range of `char`. -/
structure RuleMatrix where
  entry : Nat → Nat → Int
  low : ∀ i j, -128 ≤ entry i j
  high : ∀ i j, entry i j ≤ 127

namespace RuleMatrix

variable (R : RuleMatrix) (isPause : Bool)

def Stored (w : MainAlgWorker) (ruleArray : Nat → Double) : Prop :=
  ∀ i < w.config.ruleAmount.toNat, ∀ j < w.config.ruleLength.toNat,
    ruleArray (j * w.config.ruleAmount.toNat + i) = .ofInt (R.entry i j)

def rowCommand (i : Nat) : RobotCommand :=
  if isPause then ⟨0, 0, 0, 0⟩
  else ⟨R.entry i 2, R.entry i 3, R.entry i 5, R.entry i 4 % 256⟩

def dispatched (i : Nat) : List (Int × RobotCommand) :=
  if R.entry i 0 = 1 then (addressees (R.entry i 1)).map (·, R.rowCommand isPause i) else []

def Addresses (N : Int) (i : Nat) : Prop := R.entry i 0 = 1 ∧ N ∈ addressees (R.entry i 1)

instance (N : Int) (i : Nat) : Decidable (R.Addresses N i) := inferInstanceAs (Decidable (_ ∧ _))

variable {R isPause} {w : MainAlgWorker} {ruleArray : Nat → Double} {stack : Nat → Newmess}

theorem toInt_row (hstored : R.Stored w ruleArray) {i : Nat} (hi : i < w.config.ruleAmount.toNat)
    {j : Fin 100} (hj : (j : Int) < w.config.ruleLength) :
    (w.row ruleArray stack i j).toInt = R.entry i j := by
  have hlow := R.low i j
  have hhigh := R.high i j
  rw [row_of_lt hj, hstored i hi j (by omega), Double.toChar_ofInt (by omega), BitVec.toInt_ofInt]
  exact Int.bmod_eq_of_le (by omega) (by omega)

theorem toNat_row (hstored : R.Stored w ruleArray) {i : Nat} (hi : i < w.config.ruleAmount.toNat)
    {j : Fin 100} (hj : (j : Int) < w.config.ruleLength) :
    ((w.row ruleArray stack i j).toNat : Int) = R.entry i j % 256 := by
  have hvalue : (w.row ruleArray stack i j).toInt = R.entry i j := toInt_row hstored hi hj
  rw [BitVec.toInt_eq_toNat_bmod] at hvalue
  have hmod : R.entry i j % (2 ^ 8 : Nat) = (w.row ruleArray stack i j).toNat % (2 ^ 8 : Nat) := by
    rw [← hvalue, Int.bmod_emod]
  have hlt := (w.row ruleArray stack i j).isLt
  omega

theorem connector?_row (hlength : 6 ≤ w.config.ruleLength) (hstored : R.Stored w ruleArray) {i : Nat}
    (hi : i < w.config.ruleAmount.toNat) :
    ((w.ruleRow (w.row ruleArray stack i)).filterMap connector?).map
        (fun s => (s.1, RobotCommand.ofFrame s.2)) = R.dispatched w.isPause i := by
  have hentry {j : Fin 100} (hj : (j : Nat) < 6) : (w.row ruleArray stack i j).toInt = R.entry i j :=
    toInt_row hstored hi (by omega)
  have hactive : w.row ruleArray stack i 0 = 1 ↔ R.entry i 0 = 1 := by
    rw [← BitVec.toInt_inj, hentry (by decide)]
    rfl
  have hrobot : robot (w.row ruleArray stack i) = R.entry i 1 := by
    rw [robot, toInt_column, hentry (by decide)]
    rfl
  rw [connector?_ruleRow, dispatched]
  simp only [hactive, hrobot]
  split
  · rw [List.map_map]
    refine List.map_congr_left fun N _ => ?_
    simp only [Function.comp_apply, ofFrame_rowMessage, rowCommand, Prod.mk.injEq, true_and]
    rw [hentry (j := 2) (by decide), hentry (j := 3) (by decide), hentry (j := 5) (by decide),
      toNat_row (j := 4) hstored hi (show (4 : Int) < _ by omega)]
    rfl
  · rfl

end RuleMatrix

-- ---------------------------------------------------------------------------
-- The dispatch
-- ---------------------------------------------------------------------------

def sent (events : List MainAlgEvent) : List (Int × RobotCommand) :=
  (events.filterMap connector?).map fun s => (s.1, .ofFrame s.2)

def sentTo (N : Int) (s : Int × RobotCommand) : Option RobotCommand :=
  if s.1 = N then some s.2 else none

theorem latest_dispatched (R : RuleMatrix) (isPause : Bool) (N : Int) (i : Nat) :
    Log.latest (sentTo N) (R.dispatched isPause i) =
      if R.Addresses N i then some (R.rowCommand isPause i) else none := by
  have hmap (l : List Int) (c : RobotCommand) :
      Log.latest (sentTo N) (l.map (·, c)) = if N ∈ l then some c else none := by
    induction l with
    | nil => rfl
    | cons M l ih =>
      rw [List.map_cons, Log.latest_cons, ih, sentTo]
      by_cases hl : N ∈ l
      · simp [hl]
      · simp [hl, eq_comm (a := N)]
  unfold RuleMatrix.dispatched RuleMatrix.Addresses
  split
  · rename_i hactive
    simp only [hmap, hactive, true_and]
  · rename_i hactive
    simp [hactive]

/-- The loop sends every active row's command to the robots it addresses, in
row order, and the last active row that addresses a robot is its last word. -/
def RuleMatrix.Dispatches (R : RuleMatrix) (w : MainAlgWorker) (ruleArray : Nat → Double)
    (stack : Nat → Newmess) : Prop :=
  ∃ events, w.ruleLoop ruleArray stack = some events ∧
    sent events = (List.range w.config.ruleAmount.toNat).flatMap (R.dispatched w.isPause) ∧
    ∀ N, Log.latest (sentTo N) (sent events) =
      ((List.range w.config.ruleAmount.toNat).reverse.find? fun i => R.Addresses N i).map
        (R.rowCommand w.isPause)

/-- The rules are dispatched if the size of the matrix is an `int`. -/
theorem ruleLoop_dispatch (w : MainAlgWorker) (R : RuleMatrix) (ruleArray : Nat → Double)
    (stack : Nat → Newmess) (hamount : 0 ≤ w.config.ruleAmount)
    (hlength : 6 ≤ w.config.ruleLength ∧ w.config.ruleLength ≤ 100)
    (hsize : w.config.ruleAmount * w.config.ruleLength < 2 ^ 31) (hstored : R.Stored w ruleArray) :
    R.Dispatches w ruleArray stack := by
  have hsent : sent ((List.range w.config.ruleAmount.toNat).flatMap fun i =>
      w.ruleRow (w.row ruleArray stack i)) =
      (List.range w.config.ruleAmount.toNat).flatMap (R.dispatched w.isPause) := by
    rw [sent, List.filterMap_flatMap, List.map_flatMap]
    exact List.flatMap_congr fun i hi =>
      RuleMatrix.connector?_row hlength.1 hstored (List.mem_range.mp hi)
  have hnonneg : 0 ≤ w.config.ruleAmount * w.config.ruleLength :=
    Int.mul_nonneg hamount (by omega)
  refine ⟨_, ruleLoop_eq_flatMap hlength.2 ⟨hnonneg, hsize⟩ ruleArray stack, hsent, fun N => ?_⟩
  rw [hsent]
  refine Log.latest_flatMap fun i _ => ?_
  simpa only [decide_eq_true_eq] using latest_dispatched R w.isPause N i

def twoRows : RuleMatrix where
  entry i j := if j = 0 then 1 else if j = 1 then 3 * (i % 2) else if j = 2 then 100 - 150 * (i % 2)
    else if j = 4 then -1 else 0
  low i j := by split_ifs <;> omega
  high i j := by split_ifs <;> omega

def twoRowsArray (amount : Nat) : Nat → Double :=
  fun k => .ofInt (twoRows.entry (k % amount) (k / amount))

theorem stored_twoRows {w : MainAlgWorker} {amount : Nat} (h : w.config.ruleAmount = amount) :
    twoRows.Stored w (twoRowsArray amount) := by
  intro i hi j _
  rw [h, Int.toNat_natCast] at hi ⊢
  rw [twoRowsArray, Nat.mul_comm, Nat.mul_add_mod, Nat.mod_eq_of_lt hi, Nat.mul_add_div (by omega),
    Nat.div_eq_of_lt hi, Nat.add_zero]

theorem ruleLoop_dispatch_two_rows :
    ∃ events, (new 0 0 false ⟨"main", 2, 6⟩ false).ruleLoop (twoRowsArray 2) (fun _ _ => 7) =
        some events ∧
      sent events = [(1, ⟨100, 0, 0, 255⟩), (2, ⟨100, 0, 0, 255⟩), (3, ⟨100, 0, 0, 255⟩),
        (4, ⟨100, 0, 0, 255⟩), (3, ⟨-50, 0, 0, 255⟩)] ∧
      Log.latest (sentTo 3) (sent events) = some ⟨-50, 0, 0, 255⟩ := by
  obtain ⟨events, hloop, hsent, hlast⟩ :=
    ruleLoop_dispatch (new 0 0 false ⟨"main", 2, 6⟩ false) twoRows (twoRowsArray 2) (fun _ _ => 7)
      (by decide) (by decide) (by decide) (stored_twoRows rfl)
  exact ⟨events, hloop, hsent.trans (by decide), (hlast 3).trans (by decide)⟩

/-- With 2 ^ 29 rows of six columns the size is no `int`. -/
theorem not_dispatches_two_rows :
    twoRows.Stored (new 0 0 false ⟨"main", 2 ^ 29, 6⟩ false) (twoRowsArray (2 ^ 29)) ∧
      ¬ twoRows.Dispatches (new 0 0 false ⟨"main", 2 ^ 29, 6⟩ false) (twoRowsArray (2 ^ 29))
        fun _ _ => 7 := by
  refine ⟨stored_twoRows rfl, ?_⟩
  rintro ⟨events, hloop, -⟩
  rw [ruleLoop_eq, ruleSize_eq, if_neg (by decide)] at hloop
  cases hloop

end LARCmaCS.MainAlgWorker
