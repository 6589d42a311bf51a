import Mathlib.Algebra.Order.Floor.Ring
import Mathlib.Data.Rat.Floor
import Mathlib.Tactic.Linarith
import LARCmaCS.Dispatch

/-!
# Rules that do not fit a char

The rule loop narrows every double to a `char` before it looks at it, so an
entry is known only up to a multiple of 256 and without its fraction.
`neverMisdirects_iff` says for which matrices no frame goes to a robot its row
does not name, and no speed turns round.
-/

namespace LARCmaCS

-- ---------------------------------------------------------------------------
-- Truncation and the low byte
-- ---------------------------------------------------------------------------

namespace Double

def trunc (q : Rat) : Int := q.num.tdiv q.den

theorem trunc_neg (q : Rat) : trunc (-q) = -trunc q := by
  rw [trunc, trunc, Rat.num_neg_eq_neg_num, Rat.den_neg_eq_den, Int.neg_tdiv]

theorem trunc_of_nonneg {q : Rat} (h : 0 ≤ q) : 0 ≤ trunc q ∧ (trunc q : Rat) ≤ q := by
  have hfloor : trunc q = ⌊q⌋ := by
    rw [trunc, Int.tdiv_eq_ediv_of_nonneg (Rat.num_nonneg.mpr h), Rat.floor_def']
  rw [hfloor]
  exact ⟨Int.floor_nonneg.mpr h, Int.floor_le q⟩

theorem trunc_intCast (n : Int) : trunc n = n := by
  simp [trunc]

/-- A `char` made of `q` keeps its sign and does not exceed it. -/
def SameDirection (q : Rat) (v : Int) : Prop :=
  (0 < v ↔ 0 < q) ∧ (v < 0 ↔ q < 0) ∧ |(v : Rat)| ≤ |q|

/-- `q` is zero, or its integer part keeps the sign of `q` in its low byte. -/
def KeepsSign (q : Rat) : Prop :=
  q = 0 ∨ (0 < q ∧ 1 ≤ trunc q % 256 ∧ trunc q % 256 ≤ 127) ∨ (q < 0 ∧ 128 ≤ trunc q % 256)

theorem toInt_toChar {q : Rat} (hlow : -2 ^ 31 ≤ trunc q) (hhigh : trunc q < 2 ^ 31) :
    (Double.finite q).toChar.toInt = (trunc q).bmod 256 := by
  have hchar : (Double.finite q).toChar = BitVec.ofInt 8 (trunc q) := if_pos ⟨hlow, hhigh⟩
  rw [hchar, BitVec.toInt_ofInt]

theorem bmod_cases (n : Int) :
    (n % 256 ≤ 127 ∧ n.bmod 256 = n % 256) ∨ (128 ≤ n % 256 ∧ n.bmod 256 = n % 256 - 256) := by
  rw [Int.bmod_def]
  split
  · exact .inl ⟨by omega, rfl⟩
  · exact .inr ⟨by omega, rfl⟩

theorem sameDirection_zero {q : Rat} : SameDirection q 0 ↔ q = 0 := by
  constructor
  · rintro ⟨hpos, hneg, -⟩
    exact le_antisymm (not_lt.mp fun h => absurd (hpos.mpr h) (by decide))
      (not_lt.mp fun h => absurd (hneg.mpr h) (by decide))
  · rintro rfl
    exact ⟨by simp, by simp, by simp⟩

/-- Narrowing never makes a magnitude larger: it can only lose the sign. -/
theorem sameDirection_bmod {q : Rat} : SameDirection q ((trunc q).bmod 256) ↔ KeepsSign q := by
  rcases lt_trichotomy q 0 with hq | rfl | hq
  · obtain ⟨hnonneg, hle⟩ := trunc_of_nonneg (neg_nonneg.mpr hq.le)
    rw [trunc_neg] at hnonneg hle
    push_cast at hle
    constructor
    · rintro ⟨-, hneg, -⟩
      refine .inr (.inr ⟨hq, ?_⟩)
      have := hneg.mpr hq
      have := bmod_cases (trunc q)
      omega
    · rintro (rfl | ⟨hpos, -⟩ | ⟨-, hbyte⟩)
      · exact absurd hq (lt_irrefl 0)
      · exact absurd hpos hq.asymm
      · have hvalue : (trunc q).bmod 256 = trunc q % 256 - 256 := by
          have := bmod_cases (trunc q)
          omega
        have hbound : -((trunc q).bmod 256) ≤ -trunc q := by omega
        have hcast : -(((trunc q).bmod 256 : Int) : Rat) ≤ -(trunc q : Rat) := by exact_mod_cast hbound
        have hneg : (trunc q).bmod 256 < 0 := by omega
        refine ⟨⟨fun h => by omega, fun h => absurd h hq.asymm⟩, ⟨fun _ => hq, fun _ => hneg⟩, ?_⟩
        rw [abs_of_neg hq, abs_of_neg (by exact_mod_cast hneg)]
        linarith
  · simp [show trunc 0 = 0 from trunc_intCast 0, sameDirection_zero, KeepsSign]
  · obtain ⟨hnonneg, hle⟩ := trunc_of_nonneg hq.le
    constructor
    · rintro ⟨hpos, -, -⟩
      refine .inr (.inl ⟨hq, ?_⟩)
      have := hpos.mpr hq
      have := bmod_cases (trunc q)
      omega
    · rintro (rfl | ⟨-, hbyte⟩ | ⟨hneg, -⟩)
      · exact absurd hq (lt_irrefl 0)
      · have hvalue : (trunc q).bmod 256 = trunc q % 256 := by
          have := bmod_cases (trunc q)
          omega
        have hbound : (trunc q).bmod 256 ≤ trunc q := by omega
        have hcast : (((trunc q).bmod 256 : Int) : Rat) ≤ (trunc q : Rat) := by exact_mod_cast hbound
        have hpos : 0 < (trunc q).bmod 256 := by omega
        refine ⟨⟨fun _ => hq, fun _ => hpos⟩, ⟨fun h => by omega, fun h => absurd h hq.asymm⟩, ?_⟩
        rw [abs_of_pos hq, abs_of_pos (by exact_mod_cast hpos)]
        linarith
      · exact absurd hneg hq.asymm

end Double

namespace MainAlgWorker

open Double

-- ---------------------------------------------------------------------------
-- Matrices of doubles
-- ---------------------------------------------------------------------------

/-- The matrix `Rules`: finite doubles whose conversion to `int` is defined. -/
structure FiniteRules where
  entry : Nat → Nat → Rat
  low : ∀ i j, -2 ^ 31 ≤ trunc (entry i j)
  high : ∀ i j, trunc (entry i j) < 2 ^ 31

namespace FiniteRules

def Stored (R : FiniteRules) (w : MainAlgWorker) (ruleArray : Nat → Double) : Prop :=
  ∀ i < w.config.ruleAmount.toNat, ∀ j < w.config.ruleLength.toNat,
    ruleArray (j * w.config.ruleAmount.toNat + i) = .finite (R.entry i j)

structure Follows (R : FiniteRules) (i : Nat) (N : Int) (command : RobotCommand) : Prop where
  robot : R.entry i 1 = N ∨ R.entry i 1 = 0
  active : R.entry i 0 = 1
  speedX : SameDirection (R.entry i 2) command.speedX
  speedY : SameDirection (R.entry i 3) command.speedY
  speedR : SameDirection (R.entry i 5) command.speedR

def NeverMisdirects (R : FiniteRules) (w : MainAlgWorker) (ruleArray : Nat → Double)
    (stack : Nat → Newmess) : Prop :=
  ∀ i < w.config.ruleAmount.toNat, ∀ newmess, w.readRow ruleArray (stack i) i = some newmess →
    ∀ N command, .sendToConnector N command ∈ w.ruleRow newmess →
      R.Follows i N (.ofFrame command)

/-- In the low bytes of its columns, row `i` is active and addresses robots. -/
def Emits (R : FiniteRules) (i : Nat) : Prop :=
  trunc (R.entry i 0) % 256 = 1 ∧ trunc (R.entry i 1) % 256 ≤ MAX_NUM_ROBOTS

/-- Row `i` means what its low bytes say. While the robots are paused they
stand still, which a row follows only if it asks for that. -/
structure Plain (R : FiniteRules) (isPause : Bool) (i : Nat) : Prop where
  active : R.entry i 0 = 1
  robot : ∃ n : Nat, n ≤ MAX_NUM_ROBOTS ∧ R.entry i 1 = n
  speeds : ∀ j ∈ [2, 3, 5], R.entry i j = 0 ∨ isPause = false ∧ KeepsSign (R.entry i j)

section Rows

variable {R : FiniteRules} {w : MainAlgWorker} {ruleArray : Nat → Double} {stack : Nat → Newmess}
  {i : Nat}

theorem toInt_row (hstored : R.Stored w ruleArray) (hi : i < w.config.ruleAmount.toNat) {j : Fin 100}
    (hj : (j : Int) < w.config.ruleLength) :
    (w.row ruleArray stack i j).toInt = (trunc (R.entry i j)).bmod 256 := by
  rw [row_of_lt hj, hstored i hi j (by omega), toInt_toChar (R.low i j) (R.high i j)]

theorem mem_ruleRow {newmess : Newmess} {N : Int} {command : QByteArray} :
    .sendToConnector N command ∈ w.ruleRow newmess ↔
      newmess 0 = 1 ∧ N ∈ addressees (robot newmess) ∧
        command = (rowMessage w.isPause newmess).generateByteArray := by
  have hmem : .sendToConnector N command ∈ w.ruleRow newmess ↔
      (N, command) ∈ (w.ruleRow newmess).filterMap connector? := by
    rw [List.mem_filterMap]
    constructor
    · exact fun h => ⟨_, h, rfl⟩
    · rintro ⟨e, he, hsome⟩
      cases e with
      | sendToConnector M c =>
        cases hsome
        exact he
      | _ => cases hsome
  rw [hmem, connector?_ruleRow]
  split
  · rename_i hactive
    simp only [List.mem_map, Prod.mk.injEq, hactive, true_and]
    constructor
    · rintro ⟨M, hM, rfl, rfl⟩
      exact ⟨hM, rfl⟩
    · rintro ⟨hN, rfl⟩
      exact ⟨N, hN, rfl, rfl⟩
  · rename_i hactive
    exact ⟨fun h => (List.not_mem_nil h).elim, fun h => absurd h.1 hactive⟩

theorem speeds_iff (isPause : Bool) (q : Rat) :
    SameDirection q (if isPause then 0 else (trunc q).bmod 256) ↔
      q = 0 ∨ isPause = false ∧ KeepsSign q := by
  cases isPause with
  | false =>
    rw [if_neg Bool.false_ne_true, sameDirection_bmod]
    constructor
    · exact fun h => .inr ⟨rfl, h⟩
    · rintro (rfl | ⟨-, h⟩)
      · exact .inl rfl
      · exact h
  | true =>
    rw [if_pos rfl, sameDirection_zero]
    simp

/-- The robots that an emitting row reaches are those it names, if it names
one by its number, or all by zero. -/
theorem robot_iff {q : Rat} (hbyte : trunc q % 256 ≤ MAX_NUM_ROBOTS) :
    (∀ N ∈ addressees ((trunc q).bmod 256), q = N ∨ q = 0) ↔
      ∃ n : Nat, n ≤ MAX_NUM_ROBOTS ∧ q = n := by
  have hmax : (MAX_NUM_ROBOTS : Int) = 4 := rfl
  have hcases := bmod_cases (trunc q)
  generalize hn : (trunc q).bmod 256 = n at hcases
  constructor
  · intro h
    by_cases hzero : n = 0
    · have h1 := h 1 (mem_addressees.mpr ⟨by omega, .inl hzero⟩)
      have h2 := h 2 (mem_addressees.mpr ⟨by omega, .inl hzero⟩)
      refine ⟨0, by omega, ?_⟩
      rcases h1 with h1 | h1
      · rcases h2 with h2 | h2
        · exact absurd (h1.symm.trans h2) (by norm_num)
        · exact h2
      · exact h1
    · rcases h n (mem_addressees.mpr ⟨by omega, .inr rfl⟩) with hq | hq
      · refine ⟨n.toNat, by omega, ?_⟩
        rw [hq]
        exact_mod_cast (Int.toNat_of_nonneg (by omega)).symm
      · rw [hq, show trunc 0 = 0 from trunc_intCast 0] at hn
        exact absurd hn.symm hzero
  · rintro ⟨m, hm, rfl⟩ N hN
    have htrunc : trunc (m : Rat) = m := by exact_mod_cast trunc_intCast m
    rw [htrunc] at hcases hbyte
    obtain ⟨-, hzero | rfl⟩ := mem_addressees.mp hN
    · right
      have : m = 0 := by omega
      rw [this, Nat.cast_zero]
    · left
      have : n = m := by omega
      rw [this, Int.cast_natCast]

theorem follows_iff (hlength : 6 ≤ w.config.ruleLength) (hstored : R.Stored w ruleArray)
    (hi : i < w.config.ruleAmount.toNat) (N : Int) :
    R.Follows i N (.ofFrame (rowMessage w.isPause (w.row ruleArray stack i)).generateByteArray) ↔
      (R.entry i 1 = N ∨ R.entry i 1 = 0) ∧ R.entry i 0 = 1 ∧
        ∀ j ∈ [2, 3, 5], R.entry i j = 0 ∨ w.isPause = false ∧ KeepsSign (R.entry i j) := by
  have hspeed (j : Fin 100) (hj : (j : Nat) < 6) :
      SameDirection (R.entry i j) (if w.isPause then 0 else (w.row ruleArray stack i j).toInt) ↔
        R.entry i j = 0 ∨ w.isPause = false ∧ KeepsSign (R.entry i j) := by
    rw [toInt_row hstored hi (by omega), speeds_iff]
  have hframe := ofFrame_rowMessage w.isPause (w.row ruleArray stack i)
  generalize RobotCommand.ofFrame _ = command at hframe
  have hX : command.speedX = if w.isPause then 0 else (w.row ruleArray stack i 2).toInt := by
    rw [hframe]
    split <;> rfl
  have hY : command.speedY = if w.isPause then 0 else (w.row ruleArray stack i 3).toInt := by
    rw [hframe]
    split <;> rfl
  have hR : command.speedR = if w.isPause then 0 else (w.row ruleArray stack i 5).toInt := by
    rw [hframe]
    split <;> rfl
  have h2 := hspeed 2 (by decide)
  have h3 := hspeed 3 (by decide)
  have h5 := hspeed 5 (by decide)
  rw [← hX] at h2
  rw [← hY] at h3
  rw [← hR] at h5
  simp only [List.forall_mem_cons, List.not_mem_nil, false_imp_iff, implies_true, and_true]
  constructor
  · rintro ⟨hrobot, hactive, hx, hy, hr⟩
    exact ⟨hrobot, hactive, h2.mp hx, h3.mp hy, h5.mp hr⟩
  · rintro ⟨hrobot, hactive, hx, hy, hr⟩
    exact ⟨hrobot, hactive, h2.mpr hx, h3.mpr hy, h5.mpr hr⟩

/-- No frame is misdirected and none turns a speed round exactly if every row
that sends one is plain. -/
theorem neverMisdirects_iff (R : FiniteRules) (w : MainAlgWorker) (ruleArray : Nat → Double)
    (stack : Nat → Newmess) (hlength : 6 ≤ w.config.ruleLength ∧ w.config.ruleLength ≤ 100)
    (hstored : R.Stored w ruleArray) :
    R.NeverMisdirects w ruleArray stack ↔
      ∀ i < w.config.ruleAmount.toNat, R.Emits i → R.Plain w.isPause i := by
  refine forall_congr' fun i => forall_congr' fun hi => ?_
  have hbyte {j : Fin 100} (hj : (j : Nat) < 6) :
      (w.row ruleArray stack i j).toInt = (trunc (R.entry i j)).bmod 256 :=
    toInt_row hstored hi (by omega)
  have hactive : w.row ruleArray stack i 0 = 1 ↔ trunc (R.entry i 0) % 256 = 1 := by
    rw [← BitVec.toInt_inj, hbyte (by decide)]
    show (trunc (R.entry i 0)).bmod 256 = 1 ↔ _
    have := bmod_cases (trunc (R.entry i 0))
    omega
  have hrobot : robot (w.row ruleArray stack i) = (trunc (R.entry i 1)).bmod 256 := by
    rw [robot, toInt_column, hbyte (by decide)]
    rfl
  have hread : w.readRow ruleArray (stack i) i = some (w.row ruleArray stack i) :=
    readRow_of_le hlength.2 ruleArray (stack i) i
  constructor
  · rintro h ⟨hone, hbyte1⟩
    have hsent (N : Int) (hN : N ∈ addressees ((trunc (R.entry i 1)).bmod 256)) :=
      (follows_iff hlength.1 hstored hi N).mp
        (h _ hread N _ (mem_ruleRow.mpr ⟨hactive.mpr hone, by rwa [hrobot], rfl⟩))
    obtain ⟨N, hN⟩ : ∃ N, N ∈ addressees ((trunc (R.entry i 1)).bmod 256) := by
      have hmax : (MAX_NUM_ROBOTS : Int) = 4 := rfl
      have hcases := bmod_cases (trunc (R.entry i 1))
      by_cases hzero : (trunc (R.entry i 1)).bmod 256 = 0
      · exact ⟨1, mem_addressees.mpr ⟨by omega, .inl hzero⟩⟩
      · exact ⟨_, mem_addressees.mpr ⟨by omega, .inr rfl⟩⟩
    obtain ⟨-, hone', hspeeds⟩ := hsent N hN
    exact ⟨hone', (robot_iff hbyte1).mp fun M hM => (hsent M hM).1, hspeeds⟩
  · intro h newmess hnewmess N command hsend
    obtain rfl := Option.some.inj (hread.symm.trans hnewmess)
    obtain ⟨hone, hN, rfl⟩ := mem_ruleRow.mp hsend
    rw [hrobot] at hN
    have hbyte1 : trunc (R.entry i 1) % 256 ≤ MAX_NUM_ROBOTS := by
      have hmax : (MAX_NUM_ROBOTS : Int) = 4 := rfl
      have hcases := bmod_cases (trunc (R.entry i 1))
      obtain ⟨hbounds, hn⟩ := mem_addressees.mp hN
      omega
    obtain ⟨hone', hplain, hspeeds⟩ := h ⟨hactive.mp hone, hbyte1⟩
    exact (follows_iff hlength.1 hstored hi N).mpr
      ⟨(robot_iff hbyte1).mpr hplain N hN, hone', hspeeds⟩

end Rows

def mover : MainAlgWorker := .new 0 0 false ⟨"main", 1, 6⟩ false

def forwardColumn (robot speed : CInt) (j : Nat) : CInt :=
  if j = 0 then 1 else if j = 1 then robot else if j = 2 then speed else 0

def forward (robot speed : CInt) : FiniteRules where
  entry _ j := (forwardColumn robot speed j).toInt
  low i j := by
    rw [trunc_intCast]
    exact BitVec.le_toInt _
  high i j := by
    rw [trunc_intCast]
    exact BitVec.toInt_lt

def forwardArray (robot speed : CInt) : Nat → Double :=
  fun j => .ofInt (forwardColumn robot speed j).toInt

theorem stored_forward (robot speed : CInt) :
    (forward robot speed).Stored mover (forwardArray robot speed) := by
  intro i hi j _
  obtain rfl : i = 0 := Nat.lt_one_iff.mp hi
  show Double.ofInt (forwardColumn robot speed (j * 1 + 0)).toInt = _
  rw [Nat.mul_one, Nat.add_zero]
  rfl

theorem keepsSign_intCast {n : Int} (h : 1 ≤ n ∧ n ≤ 127) : KeepsSign n := by
  have hpos : (0 : Rat) < n := by exact_mod_cast h.1
  refine .inr (.inl ⟨hpos, ?_⟩)
  rw [trunc_intCast]
  omega

theorem neverMisdirects_iff_robot_three :
    (forward 3 50).NeverMisdirects mover (forwardArray 3 50) fun _ _ => 0 := by
  refine (neverMisdirects_iff (forward 3 50) mover (forwardArray 3 50) (fun _ _ => 0) (by decide)
    (stored_forward 3 50)).mpr fun i _ _ => ⟨rfl, ⟨3, by decide, rfl⟩, fun j hj => ?_⟩
  simp only [List.mem_cons, List.not_mem_nil, or_false] at hj
  rcases hj with rfl | rfl | rfl
  · exact .inr ⟨rfl, keepsSign_intCast (n := 50) (by decide)⟩
  · exact .inl rfl
  · exact .inl rfl

theorem row_forward (robot speed : CInt) {j : Fin 100} (hj : (j : Nat) < 6) :
    mover.row (forwardArray robot speed) (fun _ _ => 0) 0 j =
      BitVec.ofInt 8 (forwardColumn robot speed j).toInt := by
  have hlow := BitVec.le_toInt (forwardColumn robot speed j)
  have hhigh := BitVec.toInt_lt (x := forwardColumn robot speed j)
  rw [row_of_lt (show (j : Int) < 6 by omega)]
  show (Double.ofInt (forwardColumn robot speed (j * 1 + 0)).toInt).toChar = _
  rw [Nat.mul_one, Nat.add_zero]
  exact Double.toChar_ofInt ⟨by simpa using hlow, by simpa using hhigh⟩

/-- A row of a matrix that misdirects nothing is followed by the frame for the
robot that its low byte names. -/
theorem NeverMisdirects.forward {robot speed : CInt}
    (h : (forward robot speed).NeverMisdirects mover (forwardArray robot speed) fun _ _ => 0)
    (hrobot : (BitVec.ofInt 8 robot.toInt).toInt = 1) :
    (FiniteRules.forward robot speed).Follows 0 1
      ⟨(BitVec.ofInt 8 speed.toInt).toInt, 0, 0, 0⟩ := by
  have hread : mover.readRow (forwardArray robot speed) 0 0 =
      some (mover.row (forwardArray robot speed) (fun _ _ => 0) 0) :=
    readRow_of_le (by decide) (forwardArray robot speed) 0 0
  have hcolumn : MainAlgWorker.robot (mover.row (forwardArray robot speed) (fun _ _ => 0) 0) = 1 := by
    rw [MainAlgWorker.robot, toInt_column, row_forward robot speed (by decide)]
    exact hrobot
  have hactive : mover.row (forwardArray robot speed) (fun _ _ => 0) 0 0 = 1 := by
    rw [row_forward robot speed (by decide)]
    rfl
  have hsent := h 0 (by decide) _ hread 1 _ (mem_ruleRow.mpr
    ⟨hactive, by rw [hcolumn]; decide, rfl⟩)
  have hframe := ofFrame_rowMessage false (mover.row (forwardArray robot speed) (fun _ _ => 0) 0)
  rw [row_forward robot speed (j := 2) (by decide), row_forward robot speed (j := 3) (by decide),
    row_forward robot speed (j := 4) (by decide), row_forward robot speed (j := 5) (by decide)] at hframe
  rw [show mover.isPause = false from rfl, hframe] at hsent
  exact hsent

/-- Robot 257 is robot 1, and speed 200 is the speed 56 backwards. -/
theorem not_neverMisdirects_forward :
    ¬ (forward 257 0).NeverMisdirects mover (forwardArray 257 0) (fun _ _ => 0) ∧
      ¬ (forward 1 200).NeverMisdirects mover (forwardArray 1 200) (fun _ _ => 0) := by
  constructor
  · intro h
    rcases (h.forward (by decide)).robot with hrobot | hrobot
    · exact absurd (Int.cast_injective hrobot) (by decide)
    · exact absurd (Int.cast_eq_zero.mp hrobot) (by decide)
  · intro h
    have hpos := (h.forward (by decide)).speedX.1.mpr (Int.cast_pos.mpr (by decide))
    exact absurd hpos (by decide)

end FiniteRules

end MainAlgWorker

end LARCmaCS
