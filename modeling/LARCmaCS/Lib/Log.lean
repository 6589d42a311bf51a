import Mathlib.Tactic.Common
import Mathlib.Data.List.Basic

/-!
# The latest entry of a log

A log is a list of entries, oldest first. `latest f log` is what the last
entry that `f` selects says: the last value written to a variable, the last
command on a channel. `Since` holds of a log in which something was opened and
not ended afterwards.
-/

namespace Log

variable {Entry Value : Type*}

def latest (f : Entry → Option Value) (log : List Entry) : Option Value :=
  (log.filterMap f).getLast?

variable {f : Entry → Option Value} {log more : List Entry}

@[simp] theorem latest_nil : latest f [] = none := rfl

@[simp] theorem latest_append : latest f (log ++ more) = (latest f more).or (latest f log) := by
  simp [latest, List.getLast?_append]

@[simp] theorem latest_cons {e : Entry} : latest f (e :: log) = (latest f log).or (f e) := by
  cases h : f e <;> simp [latest, h, List.getLast?_cons]

theorem latest_eq_none : latest f log = none ↔ ∀ e ∈ log, f e = none := by
  simp [latest]

theorem latest_append_of_silent (h : ∀ e ∈ more, f e = none) :
    latest f (log ++ more) = latest f log := by
  rw [latest_append, latest_eq_none.mpr h, Option.none_or]

theorem exists_of_latest {v : Value} (h : latest f log = some v) : ∃ e ∈ log, f e = some v :=
  List.mem_filterMap.mp (List.mem_of_getLast? h)

theorem exists_latest {e : Entry} {v : Value} (he : e ∈ log) (hv : f e = some v) :
    ∃ w, latest f log = some w := by
  cases h : latest f log with
  | some w => exact ⟨w, rfl⟩
  | none =>
    have hnone := latest_eq_none.mp h e he
    rw [hv] at hnone
    cases hnone

theorem latest_flatMap {ι : Type*} {g : ι → List Entry} {p : ι → Bool} {v : ι → Value}
    {blocks : List ι}
    (h : ∀ i ∈ blocks, latest f (g i) = if p i then some (v i) else none) :
    latest f (blocks.flatMap g) = (blocks.reverse.find? p).map v := by
  induction blocks with
  | nil => rfl
  | cons i blocks ih =>
    rw [List.flatMap_cons, latest_append, ih fun k hk => h k (List.mem_cons_of_mem _ hk),
      h i List.mem_cons_self, List.reverse_cons, List.find?_append, Option.map_or]
    cases hp : p i <;> simp [hp]

theorem append_singleton_eq_split {before after : List Entry} {new e : Entry} :
    log ++ [new] = before ++ e :: after →
      (after = [] ∧ new = e ∧ log = before) ∨
        ∃ after', after = after' ++ [new] ∧ log = before ++ e :: after' := by
  intro h
  rcases List.eq_nil_or_concat' after with rfl | ⟨after', y, rfl⟩
  · left
    obtain ⟨hlog, he⟩ := List.append_inj' h rfl
    exact ⟨rfl, List.singleton_inj.mp he, hlog⟩
  · right
    rw [← List.cons_append, ← List.append_assoc] at h
    obtain ⟨hlog, he⟩ := List.append_inj' h rfl
    exact ⟨after', by rw [List.singleton_inj.mp he], hlog⟩

/-- An entry that opens something, and none after it that ends it. -/
def Since (opens ends : Entry → Prop) (log : List Entry) : Prop :=
  ∃ before e after, log = before ++ e :: after ∧ opens e ∧ ∀ x ∈ after, ¬ends x

section Since

variable {opens ends : Entry → Prop}

theorem not_since_nil : ¬Since opens ends [] := by
  rintro ⟨before, e, after, h, -⟩
  simp at h

theorem since_append_singleton {new : Entry} :
    Since opens ends (log ++ [new]) ↔ opens new ∨ (Since opens ends log ∧ ¬ends new) := by
  constructor
  · rintro ⟨before, e, after, h, he, hafter⟩
    rcases append_singleton_eq_split h with ⟨rfl, rfl, rfl⟩ | ⟨after, rfl, rfl⟩
    · exact .inl he
    · exact .inr ⟨⟨before, e, after, rfl, he, fun x hx => hafter x (List.mem_append_left _ hx)⟩,
        hafter new (List.mem_append_right _ List.mem_cons_self)⟩
  · rintro (hnew | ⟨⟨before, e, after, rfl, he, hafter⟩, hnew⟩)
    · exact ⟨log, new, [], rfl, hnew, fun x hx => absurd hx List.not_mem_nil⟩
    · refine ⟨before, e, after ++ [new], by simp, he, fun x hx => ?_⟩
      rcases List.mem_append.mp hx with hx | hx
      · exact hafter x hx
      · rwa [List.mem_singleton.mp hx]

end Since

end Log
