import Mathlib.Data.List.Induction
import Mathlib.Order.Lattice
import Mathlib.Tactic.Common

/-!
# The first of the best

A scan keeps the candidate of the least error so far, and replaces it by a
strictly better one only. Over candidates in the order `lt` it ends with the
first of those of least error, if any is below the bound (`scan_some`). What it
ends with has a property exactly if every candidate without it is beaten by
one that has it (`forall_scan_iff`).
-/

namespace FirstBest

variable {α κ : Type*} [LinearOrder κ]

def keep (err : α → κ) (best : Option α × κ) (c : α) : Option α × κ :=
  if err c < best.2 then (some c, err c) else best

def scan (err : α → κ) (bound : κ) (cs : List α) : Option α × κ :=
  cs.foldl (keep err) (none, bound)

/-- `d` is preferred to `c`: it has a smaller error, or the same and comes first. -/
def Beats (lt : α → α → Prop) (err : α → κ) (d c : α) : Prop :=
  err d < err c ∨ err d = err c ∧ lt d c

variable {lt : α → α → Prop} {err : α → κ} {bound : κ} {cs : List α}

theorem scan_concat (c : α) : scan err bound (cs ++ [c]) = keep err (scan err bound cs) c := by
  rw [scan, List.foldl_append, List.foldl_cons, List.foldl_nil, scan]

theorem scan_none (h : (scan err bound cs).1 = none) :
    (scan err bound cs).2 = bound ∧ ∀ c ∈ cs, bound ≤ err c := by
  induction cs using List.reverseRecOn with
  | nil => exact ⟨rfl, by simp⟩
  | append_singleton cs c ih =>
    rw [scan_concat, keep] at h ⊢
    split at h
    · cases h
    · rename_i hc
      obtain ⟨hbound, hcs⟩ := ih h
      rw [if_neg hc]
      refine ⟨hbound, fun d hd => ?_⟩
      rcases List.mem_append.mp hd with hd | hd
      · exact hcs d hd
      · rw [List.mem_singleton.mp hd, ← hbound]
        exact not_lt.mp hc

theorem scan_some {c : α} (hcs : cs.Pairwise lt) (h : (scan err bound cs).1 = some c) :
    (scan err bound cs).2 = err c ∧ c ∈ cs ∧ err c < bound ∧
      ∀ d ∈ cs, d = c ∨ Beats lt err c d := by
  induction cs using List.reverseRecOn generalizing c with
  | nil => cases h
  | append_singleton cs x ih =>
    obtain ⟨hcs, -, hx⟩ := List.pairwise_append.mp hcs
    rw [scan_concat, keep] at h ⊢
    split at h
    · rename_i hbetter
      obtain rfl := Option.some.inj h
      rw [if_pos hbetter]
      cases hold : (scan err bound cs).1 with
      | none =>
        obtain ⟨hbound, hnone⟩ := scan_none hold
        rw [hbound] at hbetter
        refine ⟨rfl, by simp, hbetter, fun d hd => ?_⟩
        rcases List.mem_append.mp hd with hd | hd
        · exact .inr (.inl (hbetter.trans_le (hnone d hd)))
        · exact .inl (List.mem_singleton.mp hd)
      | some b =>
        obtain ⟨hb, -, hbound, hbest⟩ := ih hcs hold
        rw [hb] at hbetter
        refine ⟨rfl, by simp, hbetter.trans hbound, fun d hd => ?_⟩
        rcases List.mem_append.mp hd with hd | hd
        · rcases hbest d hd with rfl | hlt | ⟨heq, -⟩
          · exact .inr (.inl hbetter)
          · exact .inr (.inl (hbetter.trans hlt))
          · exact .inr (.inl (hbetter.trans_eq heq))
        · exact .inl (List.mem_singleton.mp hd)
    · rename_i hworse
      obtain ⟨hc, hmem, hbound, hbest⟩ := ih hcs h
      rw [if_neg hworse]
      refine ⟨hc, List.mem_append_left _ hmem, hbound, fun d hd => ?_⟩
      rcases List.mem_append.mp hd with hd | hd
      · exact hbest d hd
      · obtain rfl := List.mem_singleton.mp hd
        rw [hc] at hworse
        rcases (not_lt.mp hworse).lt_or_eq with hlt | heq
        · exact .inr (.inl hlt)
        · exact .inr (.inr ⟨heq, hx c hmem d hd⟩)

/-- The scan ends with a good candidate exactly if every bad one below the bound
is beaten by a good one. -/
theorem forall_scan_iff (hlt : ∀ c d, lt c d → ¬lt d c) (hcs : cs.Pairwise lt) {P : α → Prop} :
    (∀ c, (scan err bound cs).1 = some c → P c) ↔
      ∀ c ∈ cs, ¬P c → err c < bound → ∃ d ∈ cs, P d ∧ Beats lt err d c := by
  constructor
  · intro h c hc hbad hbound
    cases hscan : (scan err bound cs).1 with
    | none => exact absurd hbound (not_lt.mpr ((scan_none hscan).2 c hc))
    | some d =>
      obtain ⟨-, hd, -, hbest⟩ := scan_some hcs hscan
      rcases hbest c hc with rfl | hbeats
      · exact absurd (h c hscan) hbad
      · exact ⟨d, hd, h d hscan, hbeats⟩
  · intro h c hscan
    obtain ⟨-, hc, hbound, hbest⟩ := scan_some hcs hscan
    by_contra hbad
    obtain ⟨d, hd, hgood, hbeats⟩ := h c hc hbad hbound
    rcases hbest d hd with rfl | hbeaten
    · exact hbad hgood
    · rcases hbeats with hless | ⟨heq, hdc⟩ <;> rcases hbeaten with hless' | ⟨heq', hcd⟩
      · exact lt_asymm hless hless'
      · exact hless.ne heq'.symm
      · exact hless'.ne heq.symm
      · exact hlt d c hdc hcd

end FirstBest
