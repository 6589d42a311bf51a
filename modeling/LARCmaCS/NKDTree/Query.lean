import LARCmaCS.NKDTree.Tree
import Mathlib.Tactic.Linarith

/-!
# Queries of the region tree

The class and its two queries. `getNextNearest` opens boxes in the order of
their distances and keeps its queue from call to call; `getOnlyNearest`
descends once and prunes.
-/

namespace LARCmaCS.NKDTree

-- ---------------------------------------------------------------------------
-- Distances
-- ---------------------------------------------------------------------------

structure ExactSqrt (K : Type) [Field K] [LinearOrder K] where
  sqrt : K → K
  sqrt_nonneg : ∀ x, 0 ≤ sqrt x
  mul_self_sqrt : ∀ x, 0 ≤ x → sqrt x * sqrt x = x

section Distances

variable {K : Type} {dim : ℕ} [Field K] [LinearOrder K] (E : ExactSqrt K)

def dist (a b : NVector K dim) : K := E.sqrt (sqdist a b)

def distFromBox (query_point : NVector K dim) (box : BBox K dim) : K :=
  dist E query_point (query_point.bound box.min box.max)

variable [IsStrictOrderedRing K]

theorem ExactSqrt.mono {x y : K} (hx : 0 ≤ x) (hxy : x ≤ y) : E.sqrt x ≤ E.sqrt y := by
  rw [mul_self_le_mul_self_iff (E.sqrt_nonneg x) (E.sqrt_nonneg y), E.mul_self_sqrt x hx,
    E.mul_self_sqrt y (hx.trans hxy)]
  exact hxy

theorem sqdist_nonneg (a b : NVector K dim) : 0 ≤ sqdist a b :=
  Finset.sum_nonneg fun _ _ => mul_self_nonneg _

theorem sq_sub_bound_le {x low high v : K} (hlow : low ≤ v) (hhigh : v ≤ high) :
    sq (x - bound x low high) ≤ sq (x - v) := by
  simp only [bound, sq]
  split_ifs
  · order
  · nlinarith
  · nlinarith
  · nlinarith

theorem distFromBox_le {box : BBox K dim} {v : NVector K dim} (h : box.Contains v)
    (q : NVector K dim) : distFromBox E q box ≤ dist E q v := by
  refine E.mono (sqdist_nonneg _ _) (Finset.sum_le_sum fun i _ => ?_)
  exact sq_sub_bound_le (h i).1 (h i).2

end Distances

/-- A node or a state. `operator <` turns the order round: a priority queue
gives out a greatest entry, and so one of least `dist`. -/
structure QueryNode (S K : Type) (dim : ℕ) where
  dist : K
  node : Node S K dim
  state : Option S

end LARCmaCS.NKDTree

namespace LARCmaCS

-- ---------------------------------------------------------------------------
-- The class
-- ---------------------------------------------------------------------------

structure NKDTree (S K : Type) (dim : ℕ) (Q : Type) where
  root : NKDTree.Node S K dim
  is_built : Bool
  query_point : NKDTree.NVector K dim
  query_max_dist : K
  queue : Q

namespace NKDTree

open BestFirst

variable {S K Q : Type} {dim : ℕ} [Field K] [LinearOrder K]

abbrev PriorityQueue (S K : Type) (dim : ℕ) (Q : Type) [LE K] :=
  LeastQueue Q (QueryNode.dist : QueryNode S K dim → K)

section Operations

variable (E : ExactSqrt K) (pq : PriorityQueue S K dim Q) (pos : S → NVector K dim)

/-- The constructor leaves `is_built`, `query_point` and `query_max_dist` as
the memory has them. -/
def construct (memory : NKDTree S K dim Q) : NKDTree S K dim Q :=
  { memory with root := .null, queue := pq.empty }

def add [NeZero dim] (t : NKDTree S K dim Q) (s : S) : NKDTree S K dim Q :=
  { t with root := Node.add pos t.is_built t.root s 0 }

def build [NeZero dim] (t : NKDTree S K dim Q) : NKDTree S K dim Q :=
  if t.is_built then t
  else { t with root := Node.split pos t.is_built t.root 0, is_built := true }

def clear (t : NKDTree S K dim Q) : NKDTree S K dim Q :=
  { t with root := .null, is_built := false }

def addNodeToSearchQueue (t : NKDTree S K dim Q) (p : Node S K dim) : NKDTree S K dim Q :=
  match p with
  | .null => t -- every caller tests for it
  | .node box sd th states n c0 c1 =>
    let qn : QueryNode S K dim := ⟨distFromBox E t.query_point box,
      .node box sd th states n c0 c1, none⟩
    if qn.dist < t.query_max_dist then { t with queue := pq.push qn t.queue } else t

def addStateToSearchQueue (t : NKDTree S K dim Q) (s : S) : NKDTree S K dim Q :=
  let qn : QueryNode S K dim := ⟨dist E t.query_point (pos s), .null, some s⟩
  if qn.dist < t.query_max_dist then { t with queue := pq.push qn t.queue } else t

def endQuery (t : NKDTree S K dim Q) : NKDTree S K dim Q := { t with queue := pq.empty }

def startQuery (t : NKDTree S K dim Q) (query_point : NVector K dim) (query_max_dist : K) :
    NKDTree S K dim Q :=
  let t := endQuery pq t
  let t := { t with query_point := query_point, query_max_dist := query_max_dist }
  addNodeToSearchQueue E pq t t.root

/-- The next state with its distance; `none` inside for `NULL`. -/
def getNextNearest : ℕ → NKDTree S K dim Q → Option (Option (S × K) × NKDTree S K dim Q)
  | 0, _ => none
  | fuel + 1, t =>
    match pq.pop t.queue with
    | none => some (none, t)
    | some (qn, queue) =>
      let t := { t with queue := queue }
      match qn.state with
      | some s => some (some (s, qn.dist), t)
      | none =>
        match qn.node with
        | .null => getNextNearest fuel t
        | .node _ _ _ states _ c0 c1 =>
          let t := addNodeToSearchQueue E pq t c0
          let t := addNodeToSearchQueue E pq t c1
          getNextNearest fuel (states.foldl (addStateToSearchQueue E pq pos) t)

def nextNearest (fuel : ℕ) : ℕ → NKDTree S K dim Q → Option (Option (S × K))
  | 0, t => (getNextNearest E pq pos fuel t).map Prod.fst
  | i + 1, t => (getNextNearest E pq pos fuel t).bind fun r => nextNearest fuel i r.2

/-- The nearest state so far and `query_max_dist` go through the descent. -/
def Node.getOnlyNearest (query_point : NVector K dim) : Node S K dim → Option S × K → Option S × K
  | .null, r => r
  | .node box sd th states _ c0 c1, r =>
    if r.2 < distFromBox E query_point box then r
    else if states ≠ [] then
      states.foldl (fun r s =>
        let d := dist E query_point (pos s)
        if d < r.2 then (some s, d) else r) r
    else if th < query_point sd then
      getOnlyNearest query_point c0 (getOnlyNearest query_point c1 r)
    else getOnlyNearest query_point c1 (getOnlyNearest query_point c0 r)

/-- The nearest state, and `max_dist` as the call leaves it. -/
def getOnlyNearest (t : NKDTree S K dim Q) (s : S) (max_dist : K) :
    (Option S × K) × NKDTree S K dim Q :=
  let r := Node.getOnlyNearest E pos (pos s) t.root (none, max_dist)
  (r, { t with query_point := pos s, query_max_dist := r.2 })

inductive Change (S : Type) where
  | add (s : S)
  | build
  | clear

def apply [NeZero dim] (t : NKDTree S K dim Q) : Change S → NKDTree S K dim Q
  | .add s => t.add pos s
  | .build => t.build pos
  | .clear => t.clear

end Operations

end NKDTree

end LARCmaCS
