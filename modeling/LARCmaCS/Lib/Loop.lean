import Mathlib.Data.List.Basic
import Mathlib.Tactic.Common

/-!
# Counted loops

`for (i = 0; i < n; i++)` as a fold over `List.range n` whose steps may have no
result. A loop runs to its end and keeps what every step carries from `i` to
`i + 1` (`invariant`).
-/

namespace Loop

variable {State : Type*} {step step' : State → Nat → Option State} {s : State} {n : Nat}

theorem foldlM_succ :
    (List.range (n + 1)).foldlM step s =
      (List.range n).foldlM step s >>= fun t => step t n := by
  rw [List.range_succ, List.foldlM_append]
  simp only [List.foldlM_cons, List.foldlM_nil, bind_pure]

theorem congr (h : ∀ i < n, ∀ t, step t i = step' t i) :
    (List.range n).foldlM step s = (List.range n).foldlM step' s := by
  induction n with
  | zero => rfl
  | succ n ih =>
    rw [foldlM_succ, foldlM_succ, ih fun i hi => h i (Nat.lt_succ_of_lt hi)]
    exact Option.bind_congr fun t _ => h n n.lt_succ_self t

theorem invariant {P : Nat → State → Prop} (hstart : P 0 s)
    (hstep : ∀ i < n, ∀ t, P i t → ∃ t', step t i = some t' ∧ P (i + 1) t') :
    ∃ s', (List.range n).foldlM step s = some s' ∧ P n s' := by
  induction n with
  | zero => exact ⟨s, rfl, hstart⟩
  | succ n ih =>
    obtain ⟨t, hloop, ht⟩ := ih fun i hi => hstep i (Nat.lt_succ_of_lt hi)
    obtain ⟨s', hlast, hs'⟩ := hstep n n.lt_succ_self t ht
    refine ⟨s', ?_, hs'⟩
    rw [foldlM_succ, hloop]
    exact hlast

end Loop
