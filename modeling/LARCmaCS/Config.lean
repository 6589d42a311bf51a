import Mathlib.Algebra.Group.Int.Defs
import Mathlib.Data.List.Infix
import LARCmaCS.Lib.Log

/-!
# The configuration file

`initConfig` of `mainAlg.cpp`: every line that contains the name of a setting
assigns what stands behind its first `=`, and nothing is checked. A setting
that no line names stays as the memory was (`none` here); a number that does
not fit an `int` has no result, as `atoi` leaves it undefined.
-/

namespace LARCmaCS

-- ---------------------------------------------------------------------------
-- atoi
-- ---------------------------------------------------------------------------

def isspace (c : Char) : Bool := c = ' ' || ('\t' ≤ c && c ≤ '\r')

def digits (s : List Char) : Nat :=
  (s.takeWhile Char.isDigit).foldl (fun n c => 10 * n + (c.toNat - '0'.toNat)) 0

/-- The number at the beginning of the text, 0 if there is none. -/
def strtol (s : List Char) : Int :=
  match s.dropWhile isspace with
  | '-' :: s => -(digits s)
  | '+' :: s => digits s
  | s => digits s

def atoi (s : List Char) : Option Int :=
  if -2 ^ 31 ≤ strtol s ∧ strtol s < 2 ^ 31 then some (strtol s) else none

-- ---------------------------------------------------------------------------
-- initConfig
-- ---------------------------------------------------------------------------

/-- The fields of `RCConfig`; `none` is an indeterminate value. -/
structure RCConfigFields where
  name : List Char
  file_of_matlab : Option (List Char)
  RULE_AMOUNT : Option Int
  RULE_LENGTH : Option Int
  BACK_AMOUNT : Option Int
  BACK_LENGTH : Option Int
  deriving DecidableEq

def RCConfigFields.fresh : RCConfigFields := ⟨[], none, none, none, none, none⟩

/-- `line.find(key) != string::npos` -/
def Mentions (key : String) (line : List Char) : Prop := key.toList <:+: line

instance (key : String) (line : List Char) : Decidable (Mentions key line) :=
  inferInstanceAs (Decidable (_ <:+: _))

/-- `line.substr(line.find('=') + 1)`: the whole line if it has no `=`, as
`npos + 1` is 0. -/
def assigned (line : List Char) : List Char :=
  match line.idxOf? '=' with
  | some i => line.drop (i + 1)
  | none => line

def c_str (s : List Char) : List Char := s.takeWhile (· ≠ '\x00')

def setting (key : String) (line : List Char) : Option Int :=
  if Mentions key line then atoi (c_str (assigned line)) else none

def assignNumber (key : String) (line : List Char) (old : Option Int) : Option (Option Int) :=
  if Mentions key line then (atoi (c_str (assigned line))).map some else some old

def RCConfigFields.assign (config : RCConfigFields) (line : List Char) : Option RCConfigFields :=
  if line = [] then some config
  else do
    let name := if Mentions "rfclient.name" line then (assigned line).take 16 else config.name
    let file_of_matlab :=
      if Mentions "rfclient.file_of_matlab" line then some (c_str ((assigned line).take 16))
      else config.file_of_matlab
    let RULE_AMOUNT ← assignNumber "rfclient.RULE_AMOUNT" line config.RULE_AMOUNT
    let RULE_LENGTH ← assignNumber "rfclient.RULE_LENGTH" line config.RULE_LENGTH
    let BACK_AMOUNT ← assignNumber "rfclient.BACK_AMOUNT" line config.BACK_AMOUNT
    let BACK_LENGTH ← assignNumber "rfclient.BACK_LENGTH" line config.BACK_LENGTH
    some { name, file_of_matlab, RULE_AMOUNT, RULE_LENGTH, BACK_AMOUNT, BACK_LENGTH }

/-- The lines that `getline` reads until the end of file; what follows the last
newline is one, even if it is empty. -/
def getlines (text : List Char) : List (List Char) := text.splitOn '\n'

def initConfig (file : Option (List Char)) (config : Option RCConfigFields) :
    Option (Int × Option RCConfigFields) :=
  match file, config with
  | none, _ => some (-1, config)
  | some _, none => some (-2, none)
  | some text, some config => do
    let config ← (getlines text).foldlM RCConfigFields.assign config
    some (0, some config)

-- ---------------------------------------------------------------------------
-- The last line that names a setting
-- ---------------------------------------------------------------------------

theorem assignNumber_eq {key : String} {line : List Char} {old new : Option Int}
    (h : assignNumber key line old = some new) : new = (setting key line).or old := by
  unfold assignNumber at h
  unfold setting
  split at h
  · rename_i hnames
    obtain ⟨n, hn, rfl⟩ := Option.map_eq_some_iff.mp h
    rw [if_pos hnames, hn]
    rfl
  · rename_i hnames
    cases h
    rw [if_neg hnames]
    rfl

theorem setting_nil {key : String} (hkey : key.toList ≠ []) : setting key [] = none := by
  rw [setting, if_neg]
  exact fun hnames => hkey (List.infix_nil.mp hnames)

theorem RCConfigFields.assign_eq {config config' : RCConfigFields} {line : List Char}
    (h : config.assign line = some config') :
    config'.RULE_AMOUNT = (setting "rfclient.RULE_AMOUNT" line).or config.RULE_AMOUNT ∧
      config'.RULE_LENGTH = (setting "rfclient.RULE_LENGTH" line).or config.RULE_LENGTH := by
  unfold assign at h
  split at h
  · rename_i hline
    cases h
    rw [hline, setting_nil (by decide), setting_nil (by decide)]
    exact ⟨rfl, rfl⟩
  · simp only [Option.bind_eq_bind, Option.bind_eq_some_iff, Option.some.injEq] at h
    obtain ⟨amount, hamount, length, hlength, -, -, -, -, rfl⟩ := h
    exact ⟨assignNumber_eq hamount, assignNumber_eq hlength⟩

theorem foldlM_assign {config config' : RCConfigFields} {lines : List (List Char)}
    (h : lines.foldlM RCConfigFields.assign config = some config') :
    config'.RULE_AMOUNT =
        (Log.latest (setting "rfclient.RULE_AMOUNT") lines).or config.RULE_AMOUNT ∧
      config'.RULE_LENGTH =
        (Log.latest (setting "rfclient.RULE_LENGTH") lines).or config.RULE_LENGTH := by
  induction lines generalizing config with
  | nil =>
    cases h
    exact ⟨rfl, rfl⟩
  | cons line lines ih =>
    rw [List.foldlM_cons, Option.bind_eq_bind, Option.bind_eq_some_iff] at h
    obtain ⟨next, hassign, hrest⟩ := h
    obtain ⟨hamount, hlength⟩ := RCConfigFields.assign_eq hassign
    obtain ⟨ihamount, ihlength⟩ := ih hrest
    rw [ihamount, ihlength, hamount, hlength, Log.latest_cons, Log.latest_cons, Option.or_assoc,
      Option.or_assoc]
    exact ⟨rfl, rfl⟩

/-- A file that is accepted has assigned a setting exactly if a line names it;
the last such line counts. -/
theorem initConfig_settings {text : List Char} {config : RCConfigFields}
    (h : initConfig (some text) (some .fresh) = some (0, some config)) :
    config.RULE_AMOUNT = Log.latest (setting "rfclient.RULE_AMOUNT") (getlines text) ∧
      config.RULE_LENGTH = Log.latest (setting "rfclient.RULE_LENGTH") (getlines text) := by
  simp only [initConfig, Option.bind_eq_bind, Option.bind_eq_some_iff, Option.some.injEq,
    Prod.mk.injEq, true_and] at h
  obtain ⟨config', hlines, rfl⟩ := h
  obtain ⟨hamount, hlength⟩ := foldlM_assign hlines
  rw [hamount, hlength]
  exact ⟨Option.or_none, Option.or_none⟩

end LARCmaCS
