import Mathlib.Data.Rat.Defs
import Mathlib.Data.Set.Operations
import Mathlib.Tactic.Linarith
import LARCmaCS.Pause

/-!
# Broadcast rows and single rows

A row with robot column 0 and a row for one robot take different branches of
the rule loop. The frames for the connector agree; the grSim commands differ
in scale, in the kick and in the test of `isPause`, so the two ways of
addressing all robots agree only on a row that asks for nothing
(`broadcast_eq_rows_iff`).
-/

namespace LARCmaCS.MainAlgWorker

/-- The robot commands among the events: frames for the connector and
commands for grSim. -/
def IsCommand : MainAlgEvent → Prop
  | .grSim .. => True
  | .sendToConnector .. => True
  | _ => False

def commands (events : List MainAlgEvent) : Set MainAlgEvent := {e | e ∈ events ∧ IsCommand e}

def rowCommands (w : MainAlgWorker) (newmess : Newmess) : Set MainAlgEvent :=
  {e | ∃ i, 1 ≤ i ∧ i ≤ MAX_NUM_ROBOTS ∧ e ∈ commands (w.ruleRow (addressed newmess i))}

-- ---------------------------------------------------------------------------
-- The two branches
-- ---------------------------------------------------------------------------

theorem column_addressed {j : Fin 100} (h : j ≠ 1) (newmess : Newmess) (i : Nat) :
    column (addressed newmess i) j = column newmess j := by
  rw [column, addressed, Function.update_of_ne h, column]

theorem robot_addressed {i : Nat} (h : i ≤ MAX_NUM_ROBOTS) (newmess : Newmess) :
    robot (addressed newmess i) = i := by
  have hsmall : i = 0 ∨ i = 1 ∨ i = 2 ∨ i = 3 ∨ i = 4 := by
    rw [MAX_NUM_ROBOTS] at h
    omega
  rw [robot, column, addressed, Function.update_self]
  rcases hsmall with rfl | rfl | rfl | rfl | rfl <;> rfl

theorem rowMessage_addressed (isPause : Bool) (newmess : Newmess) (i : Nat) :
    rowMessage isPause (addressed newmess i) = rowMessage isPause newmess := by
  have h2 := column_addressed (j := 2) (by decide) newmess i
  have h3 := column_addressed (j := 3) (by decide) newmess i
  have h4 := column_addressed (j := 4) (by decide) newmess i
  have h5 := column_addressed (j := 5) (by decide) newmess i
  simp only [rowMessage, h2, h3, h4, h5]

theorem active_addressed {newmess : Newmess} (h : Active newmess) (i : Nat) :
    Active (addressed newmess i) := by
  rwa [Active, addressed, Function.update_of_ne (by decide)]

theorem mem_commands_broadcast {newmess : Newmess} (hactive : Active newmess)
    (hrobot : newmess 1 = 0) (w : MainAlgWorker) (e : MainAlgEvent) :
    e ∈ commands (w.ruleRow newmess) ↔
      ∃ i, 1 ≤ i ∧ i ≤ MAX_NUM_ROBOTS ∧ e ∈ broadcastCommand (rowMessage w.isPause newmess) i := by
  have hzero : robot newmess = 0 := by
    rw [robot, column, hrobot]
    rfl
  have hcommand {i : Nat} (he : e ∈ broadcastCommand (rowMessage w.isPause newmess) i) :
      IsCommand e := by
    simp only [broadcastCommand, List.mem_cons, List.not_mem_nil, or_false] at he
    obtain rfl | rfl := he <;> trivial
  have hbounds (i : Nat) : i ∈ List.range' 1 MAX_NUM_ROBOTS ↔ 1 ≤ i ∧ i ≤ MAX_NUM_ROBOTS := by
    rw [List.mem_range'_1]
    omega
  rw [commands, Set.mem_ofPred_eq, ruleRow, if_pos (show newmess 0 = 1 from hactive)]
  simp only [hzero, singleCommand, lt_self_iff_false, and_false, false_and, if_false, if_true,
    List.append_nil, List.mem_append, List.mem_flatMap, hbounds]
  constructor
  · rintro ⟨hbt | ⟨i, ⟨hi1, hi4⟩, he⟩, hc⟩
    · split at hbt
      · obtain rfl := List.mem_singleton.mp hbt
        exact hc.elim
      · cases hbt
    · exact ⟨i, hi1, hi4, he⟩
  · rintro ⟨i, hi1, hi4, he⟩
    exact ⟨.inr ⟨i, ⟨hi1, hi4⟩, he⟩, hcommand he⟩

theorem mem_commands_addressed {newmess : Newmess} (hactive : Active newmess) {i : Nat}
    (hi1 : 1 ≤ i) (hi4 : i ≤ MAX_NUM_ROBOTS) (w : MainAlgWorker) (e : MainAlgEvent) :
    e ∈ commands (w.ruleRow (addressed newmess i)) ↔
      (w.isPause = false ∧ e = .grSim (hundredth (column newmess 2)) (hundredth (column newmess 3))
        (hundredth (column newmess 5)) 0 0 i) ∨
      e = .sendToConnector i (rowMessage w.isPause newmess).generateByteArray := by
  have hpos : 0 < (i : Int) := by omega
  have hle : (i : Int) ≤ MAX_NUM_ROBOTS := by omega
  have hsingle : singleCommand w.isPause (addressed newmess i) = if w.isPause = false then
      [.grSim (hundredth (column newmess 2)) (hundredth (column newmess 3))
        (hundredth (column newmess 5)) 0 0 i] else [] := by
    rw [singleCommand, robot_addressed hi4, column_addressed (by decide),
      column_addressed (by decide), column_addressed (by decide)]
    simp only [hpos, and_true]
  rw [commands, Set.mem_ofPred_eq, ruleRow,
    if_pos (show addressed newmess i 0 = 1 from active_addressed hactive i)]
  simp only [robot_addressed hi4, rowMessage_addressed, hsingle, hpos, hle, hpos.ne', and_self,
    if_true, if_false, List.append_nil, List.mem_append, List.mem_singleton]
  constructor
  · rintro ⟨(hbt | hsim) | hconnector, hc⟩
    · split at hbt
      · obtain rfl := List.mem_singleton.mp hbt
        exact hc.elim
      · cases hbt
    · split at hsim
      · rename_i hrun
        exact .inl ⟨hrun, List.mem_singleton.mp hsim⟩
      · cases hsim
    · exact .inr hconnector
  · rintro (⟨hrun, rfl⟩ | rfl)
    · exact ⟨.inl (.inr (by simp [hrun])), trivial⟩
    · exact ⟨.inr rfl, trivial⟩

-- ---------------------------------------------------------------------------
-- When they agree
-- ---------------------------------------------------------------------------

theorem column_eq_zero_iff {newmess : Newmess} {j : Fin 100} :
    column newmess j = 0#32 ↔ newmess j = 0 := by
  refine ⟨fun h => ?_, column_eq_zero⟩
  apply BitVec.eq_of_toInt_eq
  rw [← BitVec.toInt_signExtend_of_le (show 8 ≤ 32 by decide), ← column, h]
  rfl

theorem hundredth_eq_ofInt {c : CInt} : hundredth c = .ofInt c.toInt ↔ c = 0#32 := by
  have hzero : c = 0#32 ↔ c.toInt = 0 := by
    rw [← BitVec.toInt_inj, BitVec.toInt_zero]
  rw [hundredth, Double.ofInt, Double.finite.injEq, hzero]
  constructor
  · intro h
    have hscaled : (c.toInt : Rat) = 0 := by linarith
    exact_mod_cast hscaled
  · intro h
    simp [h]

/-- Five is a unit modulo `2 ^ 32`, so no non-zero kick becomes zero. -/
theorem five_mul_eq_zero {c : CInt} : 5 * c = 0#32 ↔ c = 0#32 := by
  constructor
  · intro h
    calc c = 0xCCCCCCCD#32 * (5 * c) := by
          rw [← BitVec.mul_assoc]
          exact (BitVec.one_mul c).symm
      _ = 0#32 := by rw [h, BitVec.mul_zero]
  · intro h
    rw [h, BitVec.mul_zero]

theorem mem_broadcastCommand {msg : Message} {i : Nat} {e : MainAlgEvent} :
    e ∈ broadcastCommand msg i ↔
      e = .grSim (.ofInt msg.getSpeedX.toInt) (.ofInt msg.getSpeedY.toInt)
        (.ofInt msg.getSpeedR.toInt) (.ofInt (5 * msg.getKickForward).toInt)
        (.ofInt (5 * msg.getKickUp).toInt) i ∨
      e = .sendToConnector i msg.generateByteArray := by
  simp only [broadcastCommand, List.mem_cons, List.not_mem_nil, or_false]

theorem grSim_eq_iff {newmess : Newmess} {i k : Nat} :
    MainAlgEvent.grSim (.ofInt (column newmess 2).toInt) (.ofInt (column newmess 3).toInt)
        (.ofInt (column newmess 5).toInt) (.ofInt (5 * column newmess 4).toInt) (.ofInt 0) i =
      .grSim (hundredth (column newmess 2)) (hundredth (column newmess 3))
        (hundredth (column newmess 5)) 0 0 k ↔ Idle newmess ∧ i = k := by
  have hkick : Double.ofInt (5 * column newmess 4).toInt = 0 ↔ newmess 4 = 0 := by
    rw [← Double.ofInt_zero, Double.ofInt_inj, ← BitVec.toInt_zero (w := 32), BitVec.toInt_inj,
      five_mul_eq_zero, column_eq_zero_iff]
  have hspeed (j : Fin 100) :
      Double.ofInt (column newmess j).toInt = hundredth (column newmess j) ↔ newmess j = 0 := by
    rw [eq_comm, hundredth_eq_ofInt, column_eq_zero_iff]
  rw [MainAlgEvent.grSim.injEq, hspeed, hspeed, hspeed, hkick, Double.ofInt_zero, Idle]
  constructor
  · rintro ⟨h2, h3, h5, h4, -, hi⟩
    exact ⟨⟨h2, h3, h4, h5⟩, by omega⟩
  · rintro ⟨⟨h2, h3, h4, h5⟩, rfl⟩
    exact ⟨h2, h3, h5, h4, rfl, rfl⟩

theorem idle_of_broadcast_eq_rows {w : MainAlgWorker} {newmess : Newmess}
    (hactive : Active newmess) (hrobot : newmess 1 = 0)
    (heq : commands (w.ruleRow newmess) = w.rowCommands newmess) :
    w.isPause = false ∧ Idle newmess := by
  -- The grSim command for robot 1 in the broadcast has to come from a single row.
  have hmem : MainAlgEvent.grSim _ _ _ _ _ (1 : Nat) ∈ w.rowCommands newmess :=
    heq ▸ (mem_commands_broadcast hactive hrobot w _).mpr
      ⟨1, by decide, by decide, mem_broadcastCommand.mpr (.inl rfl)⟩
  obtain ⟨i, hi1, hi4, hrow⟩ := hmem
  obtain ⟨hrun, hsame⟩ | hframe := (mem_commands_addressed hactive hi1 hi4 w _).mp hrow
  · rw [hrun] at hsame
    exact ⟨hrun, (grSim_eq_iff.mp hsame).1⟩
  · cases hframe

theorem broadcast_eq_rows_of_idle {w : MainAlgWorker} {newmess : Newmess}
    (hactive : Active newmess) (hrobot : newmess 1 = 0) (hrun : w.isPause = false)
    (hidle : Idle newmess) : commands (w.ruleRow newmess) = w.rowCommands newmess := by
  ext e
  rw [mem_commands_broadcast hactive hrobot, rowCommands, Set.mem_ofPred_eq]
  have hrow (i : Nat) : e ∈ broadcastCommand (rowMessage w.isPause newmess) i ↔
      (w.isPause = false ∧ e = .grSim (hundredth (column newmess 2))
        (hundredth (column newmess 3)) (hundredth (column newmess 5)) 0 0 i) ∨
      e = .sendToConnector i (rowMessage w.isPause newmess).generateByteArray := by
    rw [mem_broadcastCommand, ← (grSim_eq_iff (k := i)).mpr ⟨hidle, rfl⟩, hrun, eq_self,
      true_and]
    rfl
  constructor
  · rintro ⟨i, hi1, hi4, he⟩
    exact ⟨i, hi1, hi4, (mem_commands_addressed hactive hi1 hi4 w e).mpr ((hrow i).mp he)⟩
  · rintro ⟨i, hi1, hi4, he⟩
    exact ⟨i, hi1, hi4, (hrow i).mpr ((mem_commands_addressed hactive hi1 hi4 w e).mp he)⟩

/-- A broadcast row commands what the rows for each robot command exactly if
the robots are not paused and the row is idle. -/
theorem broadcast_eq_rows_iff (w : MainAlgWorker) {newmess : Newmess} (hactive : Active newmess)
    (hrobot : newmess 1 = 0) :
    commands (w.ruleRow newmess) = w.rowCommands newmess ↔ w.isPause = false ∧ Idle newmess :=
  ⟨idle_of_broadcast_eq_rows hactive hrobot,
    fun h => broadcast_eq_rows_of_idle hactive hrobot h.1 h.2⟩

def runningWorker : MainAlgWorker := .new 0 0 false ⟨"main", 1, 6⟩ false

def idleRow : Newmess := fun j => BitVec.ofInt 8 ([1].getD j 0)

theorem broadcast_eq_rows_iff_idleRow :
    commands (runningWorker.ruleRow idleRow) = runningWorker.rowCommands idleRow :=
  (broadcast_eq_rows_iff runningWorker (show Active idleRow from rfl) rfl).mpr
    ⟨rfl, rfl, rfl, rfl, rfl⟩

theorem not_broadcast_eq_rows_forward :
    ¬commands (runningWorker.ruleRow (forwardRow 0)) =
      runningWorker.rowCommands (forwardRow 0) := by
  intro heq
  have hspeed := (idle_of_broadcast_eq_rows (show Active (forwardRow 0) from rfl) rfl heq).2.1
  exact absurd hspeed (by decide)

end LARCmaCS.MainAlgWorker
