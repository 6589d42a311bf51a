import Mathlib.Tactic.Common

/-!
# Recursive descent

A procedure that loops over its own frame and calls itself: `step` says what
one round does, `resume` what follows a call. A round that is stuck has no
result. `run` is the procedure with a bound on the rounds, `Runs` is the
procedure without it; from a safe frame on it comes to an end (`exists_run`).
-/

namespace Descent

variable {Frame Result Context : Type*}

inductive Outcome (Frame Result Context : Type*) where
  | goOn (f : Frame)
  | ret (r : Result)
  | call (f : Frame) (c : Context)
  | stuck

variable (step : Frame → Outcome Frame Result Context) (resume : Context → Result → Frame ⊕ Result)

def run : Nat → Frame → Option Result
  | 0, _ => none
  | n + 1, f =>
    match step f with
    | .goOn g => run n g
    | .ret r => some r
    | .call g c =>
      (run n g).bind fun r =>
        match resume c r with
        | .inl h => run n h
        | .inr r => some r
    | .stuck => none

def Runs (f : Frame) (r : Result) : Prop := ∃ n, run step resume n f = some r

variable {step resume}

theorem run_mono {n m : Nat} (hnm : n ≤ m) {f : Frame} {r : Result}
    (h : run step resume n f = some r) : run step resume m f = some r := by
  induction n generalizing m f r with
  | zero => simp [run] at h
  | succ n ih =>
    obtain ⟨m, rfl⟩ := Nat.exists_eq_add_of_le' (show 1 ≤ m by omega)
    have hnm : n ≤ m := by omega
    rw [run] at h ⊢
    cases hstep : step f with
    | goOn g =>
      rw [hstep] at h
      exact ih hnm h
    | ret r' =>
      rw [hstep] at h
      exact h
    | call g c =>
      simp only [hstep, Option.bind_eq_some_iff] at h ⊢
      obtain ⟨r', hcall, hrest⟩ := h
      refine ⟨r', ih hnm hcall, ?_⟩
      cases hresume : resume c r' with
      | inl g' =>
        rw [hresume] at hrest
        exact ih hnm hrest
      | inr r' =>
        rw [hresume] at hrest
        exact hrest
    | stuck =>
      rw [hstep] at h
      cases h

theorem Runs.of_step_eq {f g : Frame} {r : Result} (hstep : step f = step g)
    (h : Runs step resume g r) : Runs step resume f r := by
  obtain ⟨n, hn⟩ := h
  cases n with
  | zero => simp [run] at hn
  | succ n =>
    rw [run, ← hstep] at hn
    exact ⟨n + 1, hn⟩

theorem Runs.goOn {f g : Frame} {r : Result} (hstep : step f = .goOn g)
    (h : Runs step resume g r) : Runs step resume f r := by
  obtain ⟨n, hn⟩ := h
  exact ⟨n + 1, by simp [run, hstep, hn]⟩

theorem Runs.ret {f : Frame} {r : Result} (hstep : step f = .ret r) : Runs step resume f r :=
  ⟨1, by simp [run, hstep]⟩

theorem Runs.call {f g g' : Frame} {c : Context} {r r' : Result} (hstep : step f = .call g c)
    (hcall : Runs step resume g r') (hresume : resume c r' = .inl g')
    (h : Runs step resume g' r) : Runs step resume f r := by
  obtain ⟨n, hn⟩ := hcall
  obtain ⟨m, hm⟩ := h
  refine ⟨max n m + 1, ?_⟩
  simp [run, hstep, run_mono (Nat.le_max_left n m) hn, hresume, run_mono (Nat.le_max_right n m) hm]

theorem Runs.callRet {f g : Frame} {c : Context} {r r' : Result} (hstep : step f = .call g c)
    (hcall : Runs step resume g r') (hresume : resume c r' = .inr r) : Runs step resume f r := by
  obtain ⟨n, hn⟩ := hcall
  exact ⟨n + 1, by simp [run, hstep, hn, hresume]⟩

section Termination

variable (Safe : Frame → Prop) (size : Frame → Nat) (Ends : Frame → Result → Prop)

/-- Every round and every call leaves less to be done, and the results of what
is left are results of the frame as well. -/
structure Decreases (step : Frame → Outcome Frame Result Context)
    (resume : Context → Result → Frame ⊕ Result) : Prop where
  goOn : ∀ {f g}, step f = .goOn g → size g < size f ∧ ∀ r, Ends g r → Ends f r
  ret : ∀ {f r}, step f = .ret r → Ends f r
  call : ∀ {f g c}, step f = .call g c → size g < size f
  resume : ∀ {f g c r}, step f = .call g c → Ends g r →
    (∀ {g'}, resume c r = .inl g' → size g' < size f ∧ ∀ r', Ends g' r' → Ends f r') ∧
    (∀ {r'}, resume c r = .inr r' → Ends f r')

/-- What is reached from a safe frame is safe, and not stuck. -/
structure Progresses (step : Frame → Outcome Frame Result Context)
    (resume : Context → Result → Frame ⊕ Result) : Prop where
  stuck : ∀ {f}, Safe f → step f ≠ .stuck
  goOn : ∀ {f g}, Safe f → step f = .goOn g → Safe g
  call : ∀ {f g c}, Safe f → step f = .call g c → Safe g
  resume : ∀ {f g c r g'}, Safe f → step f = .call g c → Ends g r → resume c r = .inl g' → Safe g'

variable {Safe size Ends}

theorem Runs.run_of_size (hdec : Decreases size Ends step resume) {f : Frame} {r : Result}
    (h : Runs step resume f r) {n : Nat} (hn : size f < n) :
    run step resume n f = some r ∧ Ends f r := by
  obtain ⟨m, hm⟩ := h
  induction m generalizing f r n with
  | zero => simp [run] at hm
  | succ m ih =>
    obtain ⟨n, rfl⟩ := Nat.exists_eq_add_of_le' (show 1 ≤ n by omega)
    rw [run] at hm ⊢
    cases hstep : step f with
    | goOn g =>
      rw [hstep] at hm
      obtain ⟨hlt, hends⟩ := hdec.goOn hstep
      obtain ⟨hr, hend⟩ := ih (n := n) (by omega) hm
      exact ⟨hr, hends r hend⟩
    | ret r' =>
      rw [hstep] at hm
      obtain rfl := Option.some.inj hm
      exact ⟨rfl, hdec.ret hstep⟩
    | call g c =>
      simp only [hstep, Option.bind_eq_some_iff] at hm ⊢
      obtain ⟨r', hcall, hrest⟩ := hm
      have hlt := hdec.call hstep
      obtain ⟨hr', hend'⟩ := ih (n := n) (by omega) hcall
      obtain ⟨hinl, hinr⟩ := hdec.resume hstep hend'
      cases hresume : resume c r' with
      | inl g' =>
        rw [hresume] at hrest
        obtain ⟨hlt', hends⟩ := hinl hresume
        obtain ⟨hr, hend⟩ := ih (n := n) (by omega) hrest
        exact ⟨⟨r', hr', by rw [hresume]; exact hr⟩, hends r hend⟩
      | inr r'' =>
        rw [hresume] at hrest
        obtain rfl := Option.some.inj hrest
        exact ⟨⟨r', hr', by rw [hresume]⟩, hinr hresume⟩
    | stuck =>
      rw [hstep] at hm
      cases hm

theorem exists_run (hdec : Decreases size Ends step resume)
    (hsafe : Progresses Safe Ends step resume) {f : Frame} (hf : Safe f) {n : Nat}
    (hn : size f < n) : ∃ r, run step resume n f = some r ∧ Ends f r := by
  induction n generalizing f with
  | zero => omega
  | succ n ih =>
    rw [run]
    cases hstep : step f with
    | goOn g =>
      obtain ⟨hlt, hends⟩ := hdec.goOn hstep
      obtain ⟨r, hr, hend⟩ := ih (hsafe.goOn hf hstep) (by omega)
      exact ⟨r, hr, hends r hend⟩
    | ret r => exact ⟨r, rfl, hdec.ret hstep⟩
    | call g c =>
      have hlt := hdec.call hstep
      obtain ⟨r, hr, hend⟩ := ih (hsafe.call hf hstep) (by omega)
      obtain ⟨hinl, hinr⟩ := hdec.resume hstep hend
      simp only [hr, Option.bind_some]
      cases hresume : resume c r with
      | inl g' =>
        obtain ⟨hlt', hends⟩ := hinl hresume
        obtain ⟨r', hr', hend'⟩ := ih (hsafe.resume hf hstep hend hresume) (by omega)
        exact ⟨r', hr', hends r' hend'⟩
      | inr r' => exact ⟨r', rfl, hinr hresume⟩
    | stuck => exact absurd hstep (hsafe.stuck hf)

end Termination

end Descent
