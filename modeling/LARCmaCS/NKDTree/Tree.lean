import LARCmaCS.Lib.BestFirst
import Mathlib.Algebra.BigOperators.Group.List.Basic
import Mathlib.Algebra.Order.BigOperators.Group.Finset
import Mathlib.Algebra.Order.Field.Basic
import Mathlib.Tactic.Order

/-!
# The region tree

`NKDTree` of nkdtree.h, with `scaled` false, over numbers of exact arithmetic.
`RegionTree` is the tree of dimension 2 whose states are the regions at their
centroids. A tree splits its leaves while it grows once it is built, and all
at once in `build`; either way it stores what was added (`Sound`, `stored`).
-/

namespace LARCmaCS.NKDTree

-- ---------------------------------------------------------------------------
-- Vectors and boxes
-- ---------------------------------------------------------------------------

abbrev NVector (K : Type) (dim : ℕ) := Fin dim → K

section Vectors

variable {K : Type} {dim : ℕ} [LinearOrder K]

def sq [Mul K] (x : K) : K := x * x

def bound (x low high : K) : K :=
  let x := if x < low then low else x
  if high < x then high else x

def NVector.bound (a b c : NVector K dim) : NVector K dim :=
  fun i => NKDTree.bound (a i) (b i) (c i)

def sqdist [Ring K] (a b : NVector K dim) : K := ∑ i, sq (a i - b i)

structure BBox (K : Type) (dim : ℕ) where
  min : NVector K dim
  max : NVector K dim

def initBBox (s : NVector K dim) : BBox K dim := ⟨s, s⟩

def updateBBox (b : BBox K dim) (s : NVector K dim) : BBox K dim where
  min i := if s i < b.min i then s i else b.min i
  max i := if b.max i < s i then s i else b.max i

def BBox.Contains (b : BBox K dim) (v : NVector K dim) : Prop :=
  ∀ i, b.min i ≤ v i ∧ v i ≤ b.max i

variable {b : BBox K dim} {s v : NVector K dim}

theorem updateBBox_contains_self : (updateBBox b s).Contains s := by
  intro i
  simp only [updateBBox]
  constructor <;> split <;> order

theorem updateBBox_contains (h : b.Contains v) : (updateBBox b s).Contains v := by
  intro i
  obtain ⟨hmin, hmax⟩ := h i
  simp only [updateBBox]
  constructor <;> split <;> order

end Vectors

-- ---------------------------------------------------------------------------
-- Nodes
-- ---------------------------------------------------------------------------

/-- A `Node *`. The states of a node are linked through the states themselves. -/
inductive Node (S K : Type) (dim : ℕ) where
  | null
  | node (box : BBox K dim) (split_dim : Fin dim) (threshold : K) (states : List S)
      (num_states : ℕ) (child0 child1 : Node S K dim)

namespace Node

variable {S K : Type} {dim : ℕ}

def isNull : Node S K dim → Bool
  | .null => true
  | .node .. => false

def height : Node S K dim → ℕ
  | .null => 0
  | .node _ _ _ _ _ c0 c1 => max c0.height c1.height + 1

end Node

def leaf_size : ℕ := 16

def max_depth : ℕ := 20

section Growth

variable {S K : Type} {dim : ℕ} [Field K] [LinearOrder K] [NeZero dim]
variable (pos : S → NVector K dim)

/-- The leaf's part of `add`: a new node where there is none, and `s` in front. -/
def Node.addPoint (s : S) : Node S K dim → Node S K dim
  | .null => .node (updateBBox (initBBox (pos s)) (pos s)) 0 0 [s] 1 .null .null
  | .node box sd th states n c0 c1 =>
    .node (updateBBox box (pos s)) sd th (s :: states) (n + 1) c0 c1

def mean (sd : Fin dim) (states : List S) (num_states : ℕ) : K :=
  (states.map fun s => pos s sd).sum / num_states

mutual

def Node.add (is_built : Bool) (q : Node S K dim) (s : S) (level : ℕ) : Node S K dim :=
  match q with
  | .null =>
    if is_built then Node.split is_built (Node.addPoint pos s .null) level
    else Node.addPoint pos s .null
  | .node box sd th states n c0 c1 =>
    if c0.isNull then
      let p := Node.addPoint pos s (.node box sd th states n c0 c1)
      if is_built then Node.split is_built p level else p
    else if th < pos s sd then
      .node (updateBBox box (pos s)) sd th states n c0 (Node.add is_built c1 s (level + 1))
    else
      .node (updateBBox box (pos s)) sd th states n (Node.add is_built c0 s (level + 1)) c1
termination_by (max_depth - level, q.height + 1)
decreasing_by
  · exact Prod.Lex.right _ (Nat.succ_pos _)
  · exact Prod.Lex.right _ (Nat.succ_pos _)
  · rw [Prod.lex_def, Node.height]
    omega
  · rw [Prod.lex_def, Node.height]
    omega

def Node.split (is_built : Bool) (p : Node S K dim) (level : ℕ) : Node S K dim :=
  match p with
  | .null => .null
  | .node box sd th states n c0 c1 =>
    if h : n ≤ leaf_size ∨ max_depth ≤ level then .node box sd th states n c0 c1
    else if sqdist box.min box.max < 1 / 10 ^ 9 then .node box sd th states n c0 c1
    else
      let sd := Fin.ofNat dim level
      let th := mean pos sd states n
      let c := states.foldl (fun c s =>
        if th < pos s sd then (c.1, Node.add is_built c.2 s (level + 1))
        else (Node.add is_built c.1 s (level + 1), c.2)) (c0, c1)
      if is_built then .node box sd th [] 0 c.1 c.2
      else .node box sd th [] 0
        (Node.split is_built c.1 (level + 1)) (Node.split is_built c.2 (level + 1))
termination_by (max_depth - level, 0)
decreasing_by all_goals exact Prod.Lex.left _ _ (by omega)

end

end Growth

-- ---------------------------------------------------------------------------
-- What a tree stores
-- ---------------------------------------------------------------------------

namespace Node

variable {S K : Type} {dim : ℕ}

def stored : Node S K dim → Multiset S
  | .null => 0
  | .node _ _ _ states _ c0 c1 => states + c0.stored + c1.stored

/-- Boxes contain what is stored below them. A node with states has no
children, and one without has its first child: `add` and `getOnlyNearest` tell
leaves by different fields. -/
inductive Sound [LinearOrder K] (pos : S → NVector K dim) : Node S K dim → Prop where
  | null : Sound pos .null
  | leaf {box sd th states} (hbox : ∀ s ∈ states, box.Contains (pos s)) :
      Sound pos (.node box sd th states states.length .null .null)
  | inner {box sd th c0 c1} (hbox : ∀ s ∈ c0.stored + c1.stored, box.Contains (pos s))
      (hnull : c0.isNull = false) (h0 : Sound pos c0) (h1 : Sound pos c1) :
      Sound pos (.node box sd th [] 0 c0 c1)

def Stores [LinearOrder K] (pos : S → NVector K dim) (p : Node S K dim) (m : Multiset S) : Prop :=
  p.Sound pos ∧ p.stored = m

variable [LinearOrder K] {pos : S → NVector K dim}

theorem Sound.contains {box : BBox K dim} {sd : Fin dim} {th : K} {states : List S} {n : ℕ}
    {c0 c1 : Node S K dim} (h : (node box sd th states n c0 c1).Sound pos) :
    ∀ s ∈ (node box sd th states n c0 c1).stored, box.Contains (pos s) := by
  cases h with
  | leaf hbox => simpa [stored] using hbox
  | inner hbox => simpa [stored] using hbox

theorem Sound.children {box : BBox K dim} {sd : Fin dim} {th : K} {states : List S} {n : ℕ}
    {c0 c1 : Node S K dim} (h : (node box sd th states n c0 c1).Sound pos) :
    c0.Sound pos ∧ c1.Sound pos := by
  cases h with
  | leaf => exact ⟨.null, .null⟩
  | inner _ _ h0 h1 => exact ⟨h0, h1⟩

theorem Stores.isNull {p : Node S K dim} {m : Multiset S} {s : S} (h : p.Stores pos m)
    (hs : s ∈ m) : p.isNull = false := by
  obtain ⟨-, rfl⟩ := h
  cases p with
  | null => simp [stored] at hs
  | node => rfl

end Node

section Growth

variable {S K : Type} {dim : ℕ} [LinearOrder K] {pos : S → NVector K dim}

theorem null_stores : Node.Stores pos (.null : Node S K dim) 0 := ⟨.null, rfl⟩

theorem inner_stores {box : BBox K dim} {sd : Fin dim} {th : K} {c0 c1 : Node S K dim}
    {m0 m1 : Multiset S} (hbox : ∀ s ∈ m0 + m1, box.Contains (pos s)) (hnull : c0.isNull = false)
    (h0 : c0.Stores pos m0) (h1 : c1.Stores pos m1) :
    (Node.node box sd th [] 0 c0 c1).Stores pos (m0 + m1) := by
  obtain ⟨hs0, rfl⟩ := h0
  obtain ⟨hs1, rfl⟩ := h1
  exact ⟨.inner hbox hnull hs0 hs1, by simp [Node.stored]⟩

theorem distribute_stores {add : Node S K dim → S → Node S K dim}
    (hadd : ∀ p m s, p.Stores pos m → (add p s).Stores pos (s ::ₘ m)) (above : S → Prop)
    [DecidablePred above] (states : List S) {c0 c1 : Node S K dim} {m0 m1 : Multiset S}
    (h0 : c0.Stores pos m0) (h1 : c1.Stores pos m1) :
    let c := states.foldl (fun c s =>
      if above s then (c.1, add c.2 s) else (add c.1 s, c.2)) (c0, c1)
    c.1.Stores pos ((states : Multiset S).filter (¬ above ·) + m0) ∧
      c.2.Stores pos ((states : Multiset S).filter above + m1) := by
  induction states generalizing c0 c1 m0 m1 with
  | nil => simpa using ⟨h0, h1⟩
  | cons s states ih =>
    by_cases hs : above s
    · simpa [hs, ← Multiset.cons_coe] using ih h0 (hadd _ _ s h1)
    · simpa [hs, ← Multiset.cons_coe] using ih (hadd _ _ s h0) h1

variable [Field K]

theorem addPoint_stores [NeZero dim] {p : Node S K dim} {m : Multiset S}
    (h : p.Stores pos m) (hleaf : p = .null ∨ ∃ box sd th states,
      p = .node box sd th states states.length .null .null) (s : S) :
    (p.addPoint pos s).Stores pos (s ::ₘ m) := by
  obtain ⟨hsound, rfl⟩ := h
  rcases hleaf with rfl | ⟨box, sd, th, states, rfl⟩
  · refine ⟨.leaf ?_, by simp [Node.addPoint, Node.stored]⟩
    intro t ht
    rw [List.mem_singleton.mp ht]
    exact updateBBox_contains_self
  · refine ⟨.leaf ?_, by simp [Node.addPoint, Node.stored]⟩
    intro t ht
    rcases List.mem_cons.mp ht with rfl | ht
    · exact updateBBox_contains_self
    · cases hsound with
      | leaf hbox => exact updateBBox_contains (hbox t ht)
      | inner _ hnull => cases hnull

/-- `add` stores one more state, if `split` keeps what is stored. -/
theorem add_stores_of_split [NeZero dim] {is_built : Bool} {level : ℕ}
    (hsplit : ∀ l, level ≤ l → ∀ p m, p.Stores pos m →
      (Node.split pos is_built p l).Stores pos m)
    {p : Node S K dim} {m : Multiset S} (h : p.Stores pos m) (s : S) :
    (Node.add pos is_built p s level).Stores pos (s ::ₘ m) := by
  induction p generalizing level m with
  | null =>
    have hpoint := addPoint_stores h (.inl rfl) s
    rw [Node.add]
    cases is_built with
    | true => exact hsplit level le_rfl _ _ hpoint
    | false => exact hpoint
  | node box sd th states n c0 c1 ih0 ih1 =>
    obtain ⟨hsound, rfl⟩ := h
    rw [Node.add]
    cases hsound with
    | leaf hbox =>
      have hpoint := addPoint_stores ⟨.leaf hbox, rfl⟩ (.inr ⟨box, sd, th, states, rfl⟩) s
      rw [if_pos (by rfl)]
      cases is_built with
      | true => exact hsplit level le_rfl _ _ hpoint
      | false => exact hpoint
    | inner hbox hnull h0 h1 =>
      have hbelow : ∀ l, level + 1 ≤ l → ∀ p m, p.Stores pos m →
          (Node.split pos is_built p l).Stores pos m := fun l hl => hsplit l (Nat.le_of_succ_le hl)
      have hgrown : ∀ t ∈ s ::ₘ (c0.stored + c1.stored),
          (updateBBox box (pos s)).Contains (pos t) := by
        intro t ht
        rcases Multiset.mem_cons.mp ht with rfl | ht
        · exact updateBBox_contains_self
        · exact updateBBox_contains (hbox t ht)
      have hstored : (Node.node box sd th [] 0 c0 c1).stored = c0.stored + c1.stored := by
        simp [Node.stored]
      rw [if_neg (by simp [hnull]), hstored]
      by_cases hside : th < pos s sd
      · rw [if_pos hside, ← Multiset.add_cons]
        rw [← Multiset.add_cons] at hgrown
        exact inner_stores hgrown hnull ⟨h0, rfl⟩ (ih1 hbelow ⟨h1, rfl⟩)
      · rw [if_neg hside, ← Multiset.cons_add]
        rw [← Multiset.cons_add] at hgrown
        have h0 := ih0 hbelow ⟨h0, rfl⟩
        exact inner_stores hgrown (h0.isNull (Multiset.mem_cons_self s _)) h0 ⟨h1, rfl⟩

variable [IsStrictOrderedRing K]

/-- Some state is not above the mean, so the first child gets one. -/
theorem exists_le_mean (pos : S → NVector K dim) (sd : Fin dim) {states : List S}
    (h : states ≠ []) : ∃ s ∈ states, ¬ mean pos sd states states.length < pos s sd := by
  have hlength : (states.length : K) ≠ 0 := by
    simpa using h
  have hsum : (states.map fun s => pos s sd).sum =
      (states.map fun _ => mean pos sd states states.length).sum := by
    rw [List.map_const', List.sum_replicate, nsmul_eq_mul, mean, mul_div_cancel₀ _ hlength]
  obtain ⟨s, hs, hle⟩ := List.exists_le_of_sum_le h _ _ hsum.le
  exact ⟨s, hs, not_lt.mpr hle⟩

variable [NeZero dim]

theorem split_stores_of_below {is_built : Bool} {level : ℕ}
    (hadd : level < max_depth → ∀ p m s, p.Stores pos m →
      (Node.add pos is_built p s (level + 1)).Stores pos (s ::ₘ m))
    (hsplit : level < max_depth → ∀ p m, p.Stores pos m →
      (Node.split pos is_built p (level + 1)).Stores pos m)
    {p : Node S K dim} {m : Multiset S} (h : p.Stores pos m) :
    (Node.split pos is_built p level).Stores pos m := by
  obtain ⟨hsound, rfl⟩ := h
  cases hsound with
  | null =>
    rw [Node.split]
    exact null_stores
  | inner hbox hnull h0 h1 =>
    rw [Node.split, dif_pos (.inl (Nat.zero_le _))]
    exact ⟨.inner hbox hnull h0 h1, rfl⟩
  | @leaf box sd th states hbox =>
    rw [Node.split]
    by_cases hstop : states.length ≤ leaf_size ∨ max_depth ≤ level
    · rw [dif_pos hstop]
      exact ⟨.leaf hbox, rfl⟩
    rw [dif_neg hstop]
    by_cases hpoint : sqdist box.min box.max < 1 / 10 ^ 9
    · rw [if_pos hpoint]
      exact ⟨.leaf hbox, rfl⟩
    rw [if_neg hpoint]
    obtain ⟨hsize, hlevel⟩ : leaf_size < states.length ∧ level < max_depth := by omega
    have hne : states ≠ [] := List.ne_nil_of_length_pos (Nat.zero_lt_of_lt hsize)
    extract_lets sd' th' c
    obtain ⟨s, hs, hlow⟩ := exists_le_mean pos sd' hne
    replace hlow : s ∈ (states : Multiset S).filter fun s => ¬ th' < pos s sd' :=
      Multiset.mem_filter.mpr ⟨Multiset.mem_coe.mpr hs, hlow⟩
    obtain ⟨h0, h1⟩ : c.1.Stores pos _ ∧ c.2.Stores pos _ :=
      distribute_stores (hadd hlevel) (fun s => th' < pos s sd') states null_stores null_stores
    rw [add_zero] at h0 h1
    have hall : (Node.node box sd th states states.length .null .null).stored =
        (states : Multiset S).filter (fun s => ¬ th' < pos s sd') +
          (states : Multiset S).filter (fun s => th' < pos s sd') := by
      rw [add_comm, Multiset.filter_add_not]
      simp [Node.stored]
    have hbox' : ∀ s ∈ (Node.node box sd th states states.length .null .null).stored,
        box.Contains (pos s) := by
      simpa [Node.stored] using hbox
    rw [hall] at hbox' ⊢
    cases is_built with
    | true => exact inner_stores hbox' (h0.isNull hlow) h0 h1
    | false =>
      have h0 := hsplit hlevel _ _ h0
      exact inner_stores hbox' (h0.isNull hlow) h0 (hsplit hlevel _ _ h1)

variable {p : Node S K dim} {m : Multiset S}

/-- Each split is one level below the last, and none is below `max_depth`. -/
theorem split_stores {is_built : Bool} {level : ℕ} (h : p.Stores pos m) :
    (Node.split pos is_built p level).Stores pos m := by
  induction hleft : max_depth - level using Nat.strong_induction_on generalizing level p m with
  | h left ih =>
    refine split_stores_of_below (fun hlevel p m s h => ?_) (fun hlevel p m h => ?_) h
    · refine add_stores_of_split (fun l hl p m h => ?_) h s
      exact ih (max_depth - l) (by omega) h rfl
    · exact ih (max_depth - (level + 1)) (by omega) h rfl

theorem add_stores {is_built : Bool} {level : ℕ} (h : p.Stores pos m) (s : S) :
    (Node.add pos is_built p s level).Stores pos (s ::ₘ m) :=
  add_stores_of_split (fun _ _ _ _ h => split_stores h) h s

end Growth

end LARCmaCS.NKDTree
