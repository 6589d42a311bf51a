import Mathlib.Logic.Relation
import Mathlib.Logic.Function.Basic
import Mathlib.Tactic.Common

/-!
# Union-find ordered by index

The first part is about naming the classes that a set of edges generates, and
merging two of them. The second is about forests on the natural numbers in
which no parent lies above its child: the root of a tree is then its least
member, linking a root below another merges their names, and redirecting a
node to its root changes no root. One pass from the bottom replaces every
parent by the root.
-/

namespace UnionFind

-- ---------------------------------------------------------------------------
-- Classes and their names
-- ---------------------------------------------------------------------------

section Names

variable {α β : Type*} {f : α → β} {E F : α → α → Prop}

/-- Two elements have one name exactly when the edges connect them. -/
def Names (f : α → β) (E : α → α → Prop) : Prop := ∀ i j, f i = f j ↔ Relation.EqvGen E i j

theorem eqvGen_le (hF : Equivalence F) (h : ∀ i j, E i j → F i j) {i j : α}
    (hij : Relation.EqvGen E i j) : F i j :=
  hF.eqvGen_iff.mp (hij.mono h)

theorem sameName_equivalence (f : α → β) : Equivalence fun i j => f i = f j :=
  eq_equivalence.comap f

theorem names_of_no_edge (hf : Function.Injective f) (hE : ∀ i j, ¬ E i j) : Names f E := by
  intro i j
  constructor
  · intro h
    rw [hf h]
    exact .refl j
  · exact eqvGen_le (sameName_equivalence f) fun i j h => absurd h (hE i j)

theorem Names.congr (h : Names f E) (hEF : ∀ i j, E i j → Relation.EqvGen F i j)
    (hFE : ∀ i j, F i j → Relation.EqvGen E i j) : Names f F :=
  fun i j => (h i j).trans ⟨eqvGen_le (Relation.EqvGen.is_equivalence F) hEF,
    eqvGen_le (Relation.EqvGen.is_equivalence E) hFE⟩

def merge [DecidableEq β] (f : α → β) (a b : α) (i : α) : β := if f i = f b then f a else f i

theorem Names.merge [DecidableEq β] (h : Names f E) (a b : α) :
    Names (merge f a b) fun i j => E i j ∨ (i = a ∧ j = b) := by
  have old {i j : α} (hij : f i = f j) :
      Relation.EqvGen (fun i j => E i j ∨ (i = a ∧ j = b)) i j :=
    ((h i j).mp hij).mono fun _ _ => .inl
  have new : Relation.EqvGen (fun i j => E i j ∨ (i = a ∧ j = b)) a b := .rel _ _ (.inr ⟨rfl, rfl⟩)
  intro i j
  constructor
  · unfold UnionFind.merge
    intro hij
    split at hij <;> split at hij
    · rename_i hi hj
      exact old (hi.trans hj.symm)
    · rename_i hi _
      exact .trans _ _ _ (old hi) (.trans _ _ _ (.symm _ _ new) (old hij))
    · rename_i _ hj
      exact .trans _ _ _ (old hij) (.trans _ _ _ new (old hj.symm))
    · exact old hij
  · refine eqvGen_le (sameName_equivalence _) fun i j hij => ?_
    rcases hij with hij | ⟨rfl, rfl⟩
    · simp only [UnionFind.merge, (h i j).mpr (.rel _ _ hij)]
    · simp [UnionFind.merge]

theorem merge_of_eq [DecidableEq β] {a b : α} (h : f a = f b) (i : α) : merge f a b i = f i := by
  unfold merge
  split
  · rename_i hi
    rw [h, hi]
  · rfl

end Names

-- ---------------------------------------------------------------------------
-- Forests
-- ---------------------------------------------------------------------------

def Ordered (p : Nat → Nat) : Prop := ∀ i, p i ≤ i

def root (p : Nat → Nat) (i : Nat) : Nat := if p i < i then root p (p i) else i
termination_by i

variable {p : Nat → Nat}

theorem root_le (p : Nat → Nat) (i : Nat) : root p i ≤ i := by
  induction i using Nat.strongRecOn with
  | ind i ih =>
    rw [root]
    split
    · rename_i h
      exact Nat.le_trans (ih (p i) h) (Nat.le_of_lt h)
    · exact Nat.le_refl i

theorem root_of_eq {i : Nat} (h : p i = i) : root p i = i := by
  rw [root, if_neg (by omega)]

theorem root_parent (h : Ordered p) (i : Nat) : root p (p i) = root p i := by
  by_cases hi : p i < i
  · rw [root.eq_def p i, if_pos hi]
  · rw [Nat.le_antisymm (h i) (Nat.le_of_not_lt hi)]

theorem parent_root (h : Ordered p) (i : Nat) : p (root p i) = root p i := by
  induction i using Nat.strongRecOn with
  | ind i ih =>
    by_cases hi : p i < i
    · rw [← root_parent h]
      exact ih (p i) hi
    · have hroot : p i = i := Nat.le_antisymm (h i) (Nat.le_of_not_lt hi)
      rw [root_of_eq hroot, hroot]

theorem root_root (h : Ordered p) (i : Nat) : root p (root p i) = root p i :=
  root_of_eq (parent_root h i)

/-- The roots are the least members of their classes, so the classes determine
them. -/
theorem root_unique {p' : Nat → Nat} (h : Ordered p) (h' : Ordered p') {E : Nat → Nat → Prop}
    (hnames : Names (root p) E) (hnames' : Names (root p') E) (i : Nat) : root p i = root p' i := by
  have hle {p p' : Nat → Nat} (h : Ordered p) (hnames : Names (root p) E)
      (hnames' : Names (root p') E) : root p' i ≤ root p i := by
    have hsame : root p' (root p i) = root p' i :=
      (hnames' _ _).mpr ((hnames _ _).mp (root_root h i))
    rw [← hsame]
    exact root_le p' _
  exact Nat.le_antisymm (hle h' hnames' hnames) (hle h hnames hnames')

theorem Ordered.update (h : Ordered p) {k q : Nat} (hq : q ≤ k) : Ordered (Function.update p k q) := by
  intro i
  by_cases hi : i = k
  · subst hi
    simpa using hq
  · simpa [hi] using h i

theorem root_link (h : Ordered p) {a b q : Nat} (hb : p b = b) (hq : q < b)
    (ha : root p q = root p a) (i : Nat) :
    root (Function.update p b q) i = merge (root p) a b i := by
  have hordered := h.update (Nat.le_of_lt hq)
  induction i using Nat.strongRecOn with
  | ind i ih =>
    rw [← root_parent hordered]
    by_cases hi : i = b
    · subst hi
      have hne : root p q ≠ root p i := by
        have := root_le p q
        rw [root_of_eq hb]
        omega
      rw [Function.update_self, ih q hq]
      simp only [merge, if_neg hne, if_true]
      exact ha
    · rw [Function.update_of_ne hi]
      by_cases hlt : p i < i
      · rw [ih (p i) hlt]
        simp only [merge, root_parent h]
      · have hroot : p i = i := Nat.le_antisymm (h i) (Nat.le_of_not_lt hlt)
        rw [hroot, root_of_eq (p := Function.update p b q) (by rw [Function.update_of_ne hi, hroot])]
        simp [merge, root_of_eq hroot, root_of_eq hb, hi]

theorem root_redirect (h : Ordered p) (k i : Nat) :
    root (Function.update p k (root p k)) i = root p i := by
  have hordered := h.update (root_le p k)
  induction i using Nat.strongRecOn with
  | ind i ih =>
    by_cases hi : i = k
    · subst hi
      rcases Nat.lt_or_eq_of_le (root_le p i) with hlt | heq
      · rw [← root_parent hordered, Function.update_self, ih _ hlt, root_root h]
      · rw [root_of_eq (by rw [Function.update_self, heq]), heq]
    · rw [← root_parent hordered, Function.update_of_ne hi]
      by_cases hlt : p i < i
      · rw [ih (p i) hlt, root_parent h]
      · have hroot : p i = i := Nat.le_antisymm (h i) (Nat.le_of_not_lt hlt)
        rw [hroot, root_of_eq (p := Function.update p k (root p k))
          (by rw [Function.update_of_ne hi, hroot]), root_of_eq hroot]

/-- Linking two roots, the higher below the lower; they may be one. -/
theorem root_union (h : Ordered p) {a b : Nat} (hle : root p a ≤ root p b) (i : Nat) :
    root (Function.update p (root p b) (root p a)) i = merge (root p) a b i := by
  rcases Nat.lt_or_eq_of_le hle with hlt | heq
  · rw [root_link h (parent_root h b) hlt (root_root h a)]
    simp only [merge, root_root h]
  · rw [merge_of_eq heq, heq]
    have hself := root_redirect h (root p b) i
    rwa [root_root h] at hself

theorem root_redirect_of_eq (h : Ordered p) {k r : Nat} (hr : root p k = r) (i : Nat) :
    root (Function.update p k r) i = root p i := by
  rw [← hr]
  exact root_redirect h k i

/-- The pass from the bottom over the first `n` nodes. -/
def compress (p : Nat → Nat) : Nat → Nat → Nat
  | 0 => p
  | n + 1 => Function.update (compress p n) n (compress p n (compress p n n))

theorem compress_eq (h : Ordered p) (n i : Nat) :
    compress p n i = if i < n then root p i else p i := by
  induction n generalizing i with
  | zero => rfl
  | succ n ih =>
    rw [compress]
    by_cases hi : i = n
    · subst hi
      rw [Function.update_self, if_pos (Nat.lt_succ_self i), ih i, if_neg (Nat.lt_irrefl i), ih (p i)]
      split
      · exact root_parent h i
      · have hroot : p i = i := Nat.le_antisymm (h i) (by omega)
        rw [hroot, hroot, root_of_eq hroot]
    · rw [Function.update_of_ne hi, ih i]
      simp only [show i < n + 1 ↔ i < n by omega]

end UnionFind
