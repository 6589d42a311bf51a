import LARCmaCS.Config
import LARCmaCS.Dispatch

/-!
# The memory of the rule loop

The rule loop with the bounds of the memory it touches: a read or a write past
an end and a read of a cell that was not written have no result, where
`ruleLoop` goes by what the stack holds. `rulesInBounds_iff` says for which
configuration files and matrices there is one.
-/

namespace LARCmaCS

/-- Doubles in memory; only the first `size` of them belong to the array. -/
structure DoubleArray where
  size : Nat
  data : Nat → Double

def DoubleArray.read (a : DoubleArray) (k : Nat) : Option Double :=
  if k < a.size then some (a.data k) else none

theorem DoubleArray.read_isSome {a : DoubleArray} {k : Nat} : (a.read k).isSome ↔ k < a.size := by
  unfold DoubleArray.read
  split <;> simp [*]

namespace MainAlgWorker

-- ---------------------------------------------------------------------------
-- The checked loop
-- ---------------------------------------------------------------------------

def ruleData (rules : Option DoubleArray) (k : Nat) : Double :=
  match rules with
  | none => 0
  | some rules => rules.data k

def copyRules (w : MainAlgWorker) (rules : Option DoubleArray) : Option DoubleArray := do
  let size ← w.ruleSize
  match rules with
  | none => some ⟨size, ruleData rules⟩
  | some matrix => if size ≤ matrix.size then some ⟨size, ruleData rules⟩ else none

/-- The rule loop, with no cell of a row written before it. -/
def checkedLoop (w : MainAlgWorker) (rules : Option DoubleArray) : Option (List MainAlgEvent) := do
  let ruleArray ← w.copyRules rules
  w.rows ruleArray.read fun _ _ => none

-- ---------------------------------------------------------------------------
-- One row
-- ---------------------------------------------------------------------------

theorem checkedRow_eq (w : MainAlgWorker) (ruleArray : DoubleArray) (i : Nat) :
    w.readCells ruleArray.read (fun _ => none) i =
      if ∀ j < w.config.ruleLength.toNat,
          j < 100 ∧ j * w.config.ruleAmount.toNat + i < ruleArray.size then
        some fun j => if j < w.config.ruleLength.toNat then
          some (ruleArray.data (j * w.config.ruleAmount.toNat + i)).toChar else none
      else none := by
  rw [readCells_eq]
  simp only [DoubleArray.read_isSome]
  split
  · rename_i hbounds
    refine congrArg some (funext fun j => ?_)
    by_cases hj : j < w.config.ruleLength.toNat
    · rw [if_pos hj, if_pos hj, DoubleArray.read, if_pos (hbounds j hj).2]
      rfl
    · rw [if_neg hj, if_neg hj]
  · rfl

theorem copyCells_prefix (n : Nat) (f : Nat → CChar) :
    copyCells (fun j => if j < n then some (f j) else none) =
      if 100 ≤ n then some fun (j : Fin 100) => f j else none := by
  unfold copyCells
  by_cases hn : 100 ≤ n
  · have hall : (List.range 100).all fun j => (if j < n then some (f j) else none).isSome := by
      rw [List.all_eq_true]
      intro j hj
      rw [if_pos (by have := List.mem_range.mp hj; omega)]
      rfl
    rw [if_pos hall, if_pos hn]
    refine congrArg some (funext fun j => ?_)
    simp only [show (j : Nat) < n by omega, if_true, Option.getD_some]
  · rw [if_neg hn, if_neg]
    intro hall
    have hlast := List.all_eq_true.mp hall n (List.mem_range.mpr (by omega))
    simp at hlast

def RowFits (length amount size : Nat) (active : CChar) (i : Nat) : Prop :=
  0 < length ∧ (∀ j < length, j < 100 ∧ j * amount + i < size) ∧ (100 ≤ length ∨ active ≠ 1)

open Classical in
theorem checkedRow_ruleRow (w : MainAlgWorker) (ruleArray : DoubleArray) (i : Nat)
    (stack : Nat → Newmess) :
    (w.readCells ruleArray.read (fun _ => none) i >>= w.ruleCells) =
      if RowFits w.config.ruleLength.toNat w.config.ruleAmount.toNat ruleArray.size
          (ruleArray.data i).toChar i then
        some (w.ruleRow (w.row ruleArray.data stack i))
      else none := by
  rw [checkedRow_eq]
  by_cases hbounds : ∀ j < w.config.ruleLength.toNat,
      j < 100 ∧ j * w.config.ruleAmount.toNat + i < ruleArray.size
  · rw [if_pos hbounds, Option.bind_eq_bind, Option.bind_some, ruleCells]
    by_cases hlength : 0 < w.config.ruleLength.toNat
    · have hrow : w.row ruleArray.data stack i 0 = (ruleArray.data i).toChar := by
        rw [row_of_lt (by simpa using hlength)]
        simp
      rw [if_pos hlength, Option.bind_eq_bind, Option.bind_some, Nat.zero_mul, Nat.zero_add]
      by_cases hactive : (ruleArray.data i).toChar = 1
      · rw [if_pos hactive, copyCells_prefix _ fun j =>
          (ruleArray.data (j * w.config.ruleAmount.toNat + i)).toChar]
        by_cases hfull : 100 ≤ w.config.ruleLength.toNat
        · rw [if_pos hfull, if_pos ⟨hlength, hbounds, .inl hfull⟩, Option.map_some]
          refine congrArg (fun newmess => some (w.ruleRow newmess)) (funext fun j => ?_)
          rw [row_of_lt (by omega)]
        · rw [if_neg hfull, if_neg fun hfits => hfits.2.2.elim hfull fun hne => hne hactive]
          rfl
      · rw [if_neg hactive, if_pos ⟨hlength, hbounds, .inr hactive⟩, ruleRow, hrow,
          if_neg hactive]
    · rw [if_neg hlength, if_neg fun hfits => hlength hfits.1]
      rfl
  · rw [if_neg hbounds, if_neg fun hfits => hbounds hfits.2.1]
    rfl

-- ---------------------------------------------------------------------------
-- The copy and the loop
-- ---------------------------------------------------------------------------

open Classical in
theorem foldlM_append_of_guard {α β : Type*} {f : α → Option (List β)} {P : α → Prop}
    {g : α → List β} (h : ∀ a, f a = if P a then some (g a) else none) (xs : List α)
    (acc : List β) :
    xs.foldlM (fun acc a => (f a).map (acc ++ ·)) acc =
      if ∀ a ∈ xs, P a then some (acc ++ xs.flatMap g) else none := by
  induction xs generalizing acc with
  | nil => simp
  | cons a xs ih =>
    rw [List.foldlM_cons, h]
    by_cases ha : P a
    · rw [if_pos ha, Option.map_some, Option.bind_eq_bind, Option.bind_some, ih]
      simp only [List.forall_mem_cons, ha, true_and, List.flatMap_cons, List.append_assoc]
    · rw [if_neg ha, if_neg fun hall => ha (hall a List.mem_cons_self)]
      rfl

def CopyFits (amount length : Int) (rules : Option DoubleArray) : Prop :=
  0 ≤ amount * length ∧ amount * length < 2 ^ 31 ∧
    ∀ matrix, rules = some matrix → amount * length ≤ matrix.size

open Classical in
theorem copyRules_eq (w : MainAlgWorker) (rules : Option DoubleArray) :
    w.copyRules rules = if CopyFits w.config.ruleAmount w.config.ruleLength rules then
      some ⟨(w.config.ruleAmount * w.config.ruleLength).toNat, ruleData rules⟩ else none := by
  rw [copyRules, ruleSize_eq, CopyFits]
  generalize w.config.ruleAmount * w.config.ruleLength = n
  by_cases hsize : 0 ≤ n ∧ n < 2 ^ 31
  · rw [if_pos hsize, Option.bind_eq_bind, Option.bind_some]
    cases rules with
    | none => rw [if_pos ⟨hsize.1, hsize.2, fun _ h => nomatch h⟩]
    | some matrix =>
      by_cases hmatrix : n ≤ matrix.size
      · rw [if_pos ⟨hsize.1, hsize.2, fun _ h => by cases h; exact hmatrix⟩]
        exact if_pos (by omega)
      · rw [if_neg fun hfits => hmatrix (hfits.2.2 matrix rfl)]
        exact if_neg (by omega)
  · rw [if_neg hsize, if_neg fun hfits => hsize ⟨hfits.1, hfits.2.1⟩]
    rfl

theorem checkedLoop_eq_some {w : MainAlgWorker} {rules : Option DoubleArray}
    {events : List MainAlgEvent} (stack : Nat → Newmess) :
    w.checkedLoop rules = some events ↔
      CopyFits w.config.ruleAmount w.config.ruleLength rules ∧
      (∀ i < w.config.ruleAmount.toNat,
        RowFits w.config.ruleLength.toNat w.config.ruleAmount.toNat
          (w.config.ruleAmount * w.config.ruleLength).toNat (ruleData rules i).toChar i) ∧
      events = (List.range w.config.ruleAmount.toNat).flatMap fun i =>
        w.ruleRow (w.row (ruleData rules) stack i) := by
  classical
  rw [checkedLoop, copyRules_eq]
  by_cases hcopy : CopyFits w.config.ruleAmount w.config.ruleLength rules
  · rw [if_pos hcopy, Option.bind_eq_bind, Option.bind_some, rows,
      foldlM_append_of_guard fun i => checkedRow_ruleRow w _ i stack]
    simp only [List.mem_range, List.nil_append, Option.ite_none_right_eq_some, Option.some.injEq,
      hcopy, true_and]
    rw [eq_comm]
  · rw [if_neg hcopy]
    constructor
    · intro h
      cases h
    · intro h
      exact absurd h.1 hcopy

-- ---------------------------------------------------------------------------
-- Configuration files
-- ---------------------------------------------------------------------------

def withRules (w : MainAlgWorker) (amount length : Int) : MainAlgWorker :=
  { w with config := { w.config with ruleAmount := amount, ruleLength := length } }

/-- Both settings were assigned, and the rule loop stays in its memory. -/
def RulesInBounds (w : MainAlgWorker) (config : RCConfigFields) (rules : Option DoubleArray) :
    Prop :=
  ∃ amount length, config.RULE_AMOUNT = some amount ∧ config.RULE_LENGTH = some length ∧
    ((w.withRules amount length).checkedLoop rules).isSome

/-- The settings suit the matrix: it covers their product, a row fits into
`newmess`, and it fills `newmess` if any row is active. -/
def SettingsFit (amount length : Int) (rules : Option DoubleArray) : Prop :=
  CopyFits amount length rules ∧
    (0 < amount → 1 ≤ length ∧ length ≤ 100 ∧
      (length = 100 ∨ ∀ i < amount.toNat, (ruleData rules i).toChar ≠ 1))

theorem rowFits_iff {amount length : Int} {active : CChar} {i : Nat} (hi : i < amount.toNat) :
    RowFits length.toNat amount.toNat (amount * length).toNat active i ↔
      1 ≤ length ∧ length ≤ 100 ∧ (length = 100 ∨ active ≠ 1) := by
  constructor
  · rintro ⟨hpos, hcells, hactive⟩
    have hlast := (hcells (length.toNat - 1) (by omega)).1
    exact ⟨by omega, by omega, hactive.imp (fun h => by omega) id⟩
  · rintro ⟨hpos, hlength, hactive⟩
    exact ⟨by omega, fun j hj => ⟨by omega, index_lt_mul hi hj⟩,
      hactive.imp (fun h => by omega) id⟩

theorem checkedLoop_isSome_iff (w : MainAlgWorker) (rules : Option DoubleArray) :
    (w.checkedLoop rules).isSome ↔
      SettingsFit w.config.ruleAmount w.config.ruleLength rules := by
  rw [Option.isSome_iff_exists, SettingsFit]
  constructor
  · rintro ⟨events, hevents⟩
    obtain ⟨hcopy, hrows, -⟩ := (checkedLoop_eq_some fun _ _ => 0).mp hevents
    refine ⟨hcopy, fun hamount => ?_⟩
    have hfits i (hi : i < w.config.ruleAmount.toNat) := (rowFits_iff hi).mp (hrows i hi)
    obtain ⟨hpos, hlength, -⟩ := hfits 0 (by omega)
    refine ⟨hpos, hlength, or_iff_not_imp_left.mpr fun hfull i hi => ?_⟩
    exact (hfits i hi).2.2.resolve_left hfull
  · rintro ⟨hcopy, hfits⟩
    refine ⟨_, (checkedLoop_eq_some fun _ _ => 0).mpr ⟨hcopy, fun i hi => ?_, rfl⟩⟩
    obtain ⟨hpos, hlength, hactive⟩ := hfits (by omega)
    exact (rowFits_iff hi).mpr ⟨hpos, hlength, hactive.imp_right fun h => h i hi⟩

/-- The file `LARCmaCS.cnf` of the repository. -/
def shippedText : List Char :=
  ["rfclient.name=RoboFootball\n", "rfclient.file_of_matlab=main\n", "rfclient.RULE_AMOUNT=5\n",
    "rfclient.RULE_LENGTH=7\n", "rfclient.BACK_AMOUNT=10\n", "rfclient.BACK_LENGTH=8\n",
    "\n"].flatMap String.toList

def shippedFields : RCConfigFields :=
  ⟨"RoboFootball".toList, some "main".toList, some 5, some 7, some 10, some 8⟩

theorem initConfig_shippedText :
    initConfig (some shippedText) (some .fresh) = some (0, some shippedFields) := by
  decide +kernel

def idleWorker : MainAlgWorker := .new 0 0 false ⟨"main", 5, 7⟩ false

end MainAlgWorker

end LARCmaCS
