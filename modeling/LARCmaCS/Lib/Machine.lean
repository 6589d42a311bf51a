import Mathlib.Data.List.Induction
import Mathlib.Tactic.Common

/-!
# Machines that emit outputs

A machine is a partial step function: an action that is not enabled, or whose
effect is undefined, has no result. A run collects the outputs of its steps,
oldest first. Invariants relate the state to the outputs so far; the rules
below carry them from one step to every run, also when only the steps that
meet a condition keep them.
-/

namespace Machine

variable {State Act Out : Type*}

def run (step : State → Act → Option (State × Out)) (s : State) (acts : List Act) :
    Option (State × List Out) :=
  acts.foldlM (fun (s, outs) a => (step s a).map fun (s', out) => (s', outs ++ [out])) (s, [])

variable {step : State → Act → Option (State × Out)} {s s' : State} {acts : List Act}
  {outs : List Out}

@[simp] theorem run_nil : run step s [] = some (s, []) := rfl

theorem run_append_singleton {a : Act} :
    run step s (acts ++ [a]) = some (s', outs) ↔
      ∃ t outs' out, run step s acts = some (t, outs') ∧ step t a = some (s', out) ∧
        outs = outs' ++ [out] := by
  simp only [run, List.foldlM_append, List.foldlM_cons, List.foldlM_nil, Option.bind_eq_bind,
    Option.bind_eq_some_iff, Option.map_eq_some_iff, Option.pure_def, Option.some.injEq, Prod.exists,
    Prod.mk.injEq]
  constructor
  · rintro ⟨t, outs', hrun, _, _, ⟨u, out, hstep, rfl, rfl⟩, rfl, rfl⟩
    exact ⟨t, outs', out, hrun, hstep, rfl⟩
  · rintro ⟨t, outs', out, hrun, hstep, rfl⟩
    exact ⟨t, outs', hrun, _, _, ⟨s', out, hstep, rfl, rfl⟩, rfl, rfl⟩

theorem run_total_of {C : Act → Prop} (h : ∀ s a, C a → ∃ next, step s a = some next) (s : State)
    {acts : List Act} (hacts : ∀ a ∈ acts, C a) : ∃ final, run step s acts = some final := by
  induction acts using List.reverseRecOn with
  | nil => exact ⟨_, rfl⟩
  | append_singleton acts a ih =>
    obtain ⟨⟨t, outs⟩, hrun⟩ := ih fun b hb => hacts b (by simp [hb])
    obtain ⟨⟨t', out⟩, hstep⟩ := h t a (hacts a (by simp))
    exact ⟨_, run_append_singleton.mpr ⟨t, outs, out, hrun, hstep, rfl⟩⟩

theorem run_total (h : ∀ s a, ∃ next, step s a = some next) (s : State) (acts : List Act) :
    ∃ final, run step s acts = some final :=
  run_total_of (C := fun _ => True) (fun s a _ => h s a) s fun _ _ => trivial

/-- Every step of the actions' run from `s` meets a condition on the state
before it and the action. -/
def Always (step : State → Act → Option (State × Out)) (C : State → Act → Prop) (s : State)
    (acts : List Act) : Prop :=
  ∀ earlier a later t outs, acts = earlier ++ a :: later → run step s earlier = some (t, outs) →
    C t a

theorem Always.of_append {C : State → Act → Prop} {more : List Act}
    (h : Always step C s (acts ++ more)) : Always step C s acts := by
  rintro earlier b later t outs rfl hrun
  exact h earlier b (later ++ more) t outs (by simp) hrun

/-- The induction rule for runs all of whose steps meet a condition: what holds
may speak of the actions taken so far. -/
theorem run_induction_of {I : List Act → State → List Out → Prop} {C : State → Act → Prop}
    (hinit : I [] s [])
    (hstep : ∀ earlier t outs a t' out, I earlier t outs → C t a → step t a = some (t', out) →
      I (earlier ++ [a]) t' (outs ++ [out]))
    (hcond : Always step C s acts) (hrun : run step s acts = some (s', outs)) : I acts s' outs := by
  induction acts using List.reverseRecOn generalizing s' outs with
  | nil =>
    obtain ⟨rfl, rfl⟩ : s = s' ∧ [] = outs := by simpa using hrun
    exact hinit
  | append_singleton acts a ih =>
    obtain ⟨t, outs', out, ht, ha, rfl⟩ := run_append_singleton.mp hrun
    exact hstep acts t outs' a s' out (ih hcond.of_append ht)
      (hcond acts a [] t outs' rfl ht) ha

theorem run_induction {I : List Act → State → List Out → Prop} (hinit : I [] s [])
    (hstep : ∀ earlier t outs a t' out, I earlier t outs → step t a = some (t', out) →
      I (earlier ++ [a]) t' (outs ++ [out]))
    (hrun : run step s acts = some (s', outs)) : I acts s' outs :=
  run_induction_of (C := fun _ _ => True) hinit
    (fun earlier t outs a t' out hI _ => hstep earlier t outs a t' out hI)
    (fun _ _ _ _ _ _ _ => trivial) hrun

/-- The invariant rule for runs all of whose steps meet a condition. -/
theorem run_invariant_of {I : State → List Out → Prop} {C : State → Act → Prop}
    (hinit : I s [])
    (hstep : ∀ t outs a t' out, I t outs → C t a → step t a = some (t', out) →
      I t' (outs ++ [out]))
    (hcond : Always step C s acts) (hrun : run step s acts = some (s', outs)) : I s' outs :=
  run_induction_of (I := fun _ => I) hinit (fun _ => hstep) hcond hrun

theorem run_invariant {I : State → List Out → Prop} (hinit : I s [])
    (hstep : ∀ t outs a t' out, I t outs → step t a = some (t', out) → I t' (outs ++ [out]))
    (hrun : run step s acts = some (s', outs)) : I s' outs :=
  run_induction (I := fun _ => I) hinit (fun _ => hstep) hrun

theorem run_append {more : List Act} :
    run step s (acts ++ more) = some (s', outs) ↔
      ∃ t outs₁ outs₂, run step s acts = some (t, outs₁) ∧ run step t more = some (s', outs₂) ∧
        outs = outs₁ ++ outs₂ := by
  induction more using List.reverseRecOn generalizing s' outs with
  | nil =>
    constructor
    · intro h
      exact ⟨s', outs, [], by simpa using h, rfl, by simp⟩
    · rintro ⟨t, outs₁, outs₂, h₁, h₂, rfl⟩
      obtain ⟨rfl, rfl⟩ : t = s' ∧ [] = outs₂ := by simpa using h₂
      simpa using h₁
  | append_singleton more a ih =>
    rw [← List.append_assoc, run_append_singleton]
    constructor
    · rintro ⟨u, outs', out, hu, ha, rfl⟩
      obtain ⟨t, outs₁, outs₂, h₁, h₂, rfl⟩ := ih.mp hu
      exact ⟨t, outs₁, outs₂ ++ [out], h₁, run_append_singleton.mpr ⟨u, outs₂, out, h₂, ha, rfl⟩,
        by simp⟩
    · rintro ⟨t, outs₁, outs₂, h₁, h₂, rfl⟩
      obtain ⟨u, outs', out, hu, ha, rfl⟩ := run_append_singleton.mp h₂
      exact ⟨u, outs₁ ++ outs', out, ih.mpr ⟨t, outs₁, outs', h₁, hu, rfl⟩, ha, by simp⟩

theorem run_cons {a : Act} :
    run step s (a :: acts) = some (s', outs) ↔
      ∃ t out outs', step s a = some (t, out) ∧ run step t acts = some (s', outs') ∧
        outs = out :: outs' := by
  have hone : ∀ t outs₁, run step s [a] = some (t, outs₁) ↔
      ∃ out, step s a = some (t, out) ∧ outs₁ = [out] := by
    intro t outs₁
    rw [← List.nil_append [a], run_append_singleton]
    simp
  rw [← List.singleton_append, run_append]
  constructor
  · rintro ⟨t, outs₁, outs₂, h₁, h₂, rfl⟩
    obtain ⟨out, hstep, rfl⟩ := (hone t outs₁).mp h₁
    exact ⟨t, out, outs₂, hstep, h₂, rfl⟩
  · rintro ⟨t, out, outs', hstep, h₂, rfl⟩
    exact ⟨t, [out], outs', (hone t [out]).mpr ⟨out, hstep, rfl⟩, h₂, rfl⟩

theorem exists_step_of_mem {a : Act} (hrun : run step s acts = some (s', outs)) (ha : a ∈ acts) :
    ∃ t t' out, step t a = some (t', out) := by
  obtain ⟨earlier, later, rfl⟩ := List.append_of_mem ha
  obtain ⟨t, outs₁, outs₂, -, hlater, -⟩ := run_append.mp hrun
  obtain ⟨t', out, outs', hstep, -, -⟩ := run_cons.mp hlater
  exact ⟨t, t', out, hstep⟩

theorem Always.nil {C : State → Act → Prop} : Always step C s [] := by
  intro earlier a later t outs h
  simp at h

theorem Always.cons {C : State → Act → Prop} {a : Act} (ha : C s a)
    (h : ∀ t out, step s a = some (t, out) → Always step C t acts) :
    Always step C s (a :: acts) := by
  intro earlier b later t outs heq hrun
  cases earlier with
  | nil =>
    obtain ⟨rfl, rfl⟩ : a = b ∧ acts = later := by simpa using heq
    obtain ⟨rfl, rfl⟩ : s = t ∧ [] = outs := by simpa using hrun
    exact ha
  | cons c earlier =>
    obtain ⟨rfl, rfl⟩ : a = c ∧ acts = earlier ++ b :: later := by simpa using heq
    obtain ⟨u, out, outs', hstep, hrest, -⟩ := run_cons.mp hrun
    exact h u out hstep earlier b later t outs' rfl hrest

theorem Always.cons_of {C : State → Act → Prop} {a : Act} {t : State} {out : Out}
    (hstep : step s a = some (t, out)) (ha : C s a) (h : Always step C t acts) :
    Always step C s (a :: acts) := by
  refine .cons ha fun t' out' hstep' => ?_
  obtain ⟨rfl, rfl⟩ : t = t' ∧ out = out' := by simpa [hstep] using hstep'
  exact h

-- ---------------------------------------------------------------------------
-- What a machine can come to
-- ---------------------------------------------------------------------------

def Leads (step : State → Act → Option (State × Out)) (s : State) (Q : State → Prop) : Prop :=
  ∃ acts s' outs, run step s acts = some (s', outs) ∧ Q s'

variable {Q R : State → Prop}

theorem Leads.here (h : Q s) : Leads step s Q := ⟨[], s, [], rfl, h⟩

theorem Leads.cons {a : Act} {t : State} {out : Out} (hstep : step s a = some (t, out))
    (h : Leads step t Q) : Leads step s Q := by
  obtain ⟨acts, s', outs, hrun, hQ⟩ := h
  exact ⟨a :: acts, s', out :: outs, run_cons.mpr ⟨t, out, outs, hstep, hrun, rfl⟩, hQ⟩

theorem Leads.trans (h : Leads step s Q) (hnext : ∀ t, Q t → Leads step t R) : Leads step s R := by
  obtain ⟨acts, t, outs, hrun, hQ⟩ := h
  obtain ⟨more, s', outs', hrun', hR⟩ := hnext t hQ
  exact ⟨acts ++ more, s', outs ++ outs', run_append.mpr ⟨t, outs, outs', hrun, hrun', rfl⟩, hR⟩

/-- A machine that takes the steps of another in one of its components. -/
theorem run_lift {State' Act' Out' : Type*} {step' : State' → Act' → Option (State' × Out')}
    (embed : State → State') (act : Act → Act') (emit : Out → Out')
    (hstep : ∀ s a, step' (embed s) (act a) = (step s a).map fun (t, out) => (embed t, emit out))
    (hrun : run step s acts = some (s', outs)) :
    run step' (embed s) (acts.map act) = some (embed s', outs.map emit) := by
  induction acts generalizing s outs with
  | nil =>
    obtain ⟨rfl, rfl⟩ : s = s' ∧ [] = outs := by simpa using hrun
    rfl
  | cons a acts ih =>
    obtain ⟨t, out, outs, ha, hrest, rfl⟩ := run_cons.mp hrun
    refine run_cons.mpr ⟨embed t, emit out, outs.map emit, ?_, ih hrest, rfl⟩
    simp [hstep, ha]

/-- A machine that can do what another does, with the same outputs. -/
theorem run_simulation {State' : Type*} {step' : State' → Act → Option (State' × Out)}
    {R : State → State' → Prop} {C : Act → Prop}
    (hstep : ∀ s u a u' out, R s u → C a → step' u a = some (u', out) →
      ∃ s', step s a = some (s', out) ∧ R s' u')
    {u u' : State'} (hR : R s u) (hacts : ∀ a ∈ acts, C a)
    (hrun : run step' u acts = some (u', outs)) :
    ∃ s', run step s acts = some (s', outs) ∧ R s' u' := by
  induction acts generalizing s u outs with
  | nil =>
    obtain ⟨rfl, rfl⟩ : u = u' ∧ [] = outs := by simpa using hrun
    exact ⟨s, rfl, hR⟩
  | cons a acts ih =>
    obtain ⟨v, out, outs, hv, hrest, rfl⟩ := run_cons.mp hrun
    obtain ⟨t, ht, hRt⟩ := hstep s u a v out hR (hacts a (by simp)) hv
    obtain ⟨s', hs', hRs'⟩ := ih hRt (fun b hb => hacts b (by simp [hb])) hrest
    exact ⟨s', run_cons.mpr ⟨t, out, outs, ht, hs', rfl⟩, hRs'⟩

end Machine
