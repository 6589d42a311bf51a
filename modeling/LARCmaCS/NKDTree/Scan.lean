import LARCmaCS.NKDTree.Query
import Mathlib.Analysis.Real.Sqrt

/-!
# The region tree answers as a scan does

Whatever was added in whatever order, and whenever the tree was built, both
queries agree with a scan of the states: `queries_eq_scan`.
-/

namespace LARCmaCS.NKDTree

open BestFirst

variable {S K Q : Type} {dim : ℕ} [Field K] [LinearOrder K]

-- ---------------------------------------------------------------------------
-- What was added
-- ---------------------------------------------------------------------------

def Change.after (m : Multiset S) : Change S → Multiset S
  | .add s => s ::ₘ m
  | .build => m
  | .clear => 0

def added (changes : List (Change S)) : Multiset S := changes.foldl Change.after 0

section Contents

variable [IsStrictOrderedRing K] [NeZero dim] {pos : S → NVector K dim}

theorem apply_stores {t : NKDTree S K dim Q} {m : Multiset S} (h : t.root.Stores pos m)
    (changes : List (Change S)) :
    (changes.foldl (apply pos) t).root.Stores pos (changes.foldl Change.after m) := by
  induction changes generalizing t m with
  | nil => exact h
  | cons change changes ih =>
    rw [List.foldl_cons, List.foldl_cons]
    apply ih
    cases change with
    | add s => exact add_stores h s
    | build =>
      simp only [apply, build]
      split
      · exact h
      · exact split_stores h
    | clear => exact null_stores

end Contents

-- ---------------------------------------------------------------------------
-- Scans
-- ---------------------------------------------------------------------------

section Scans

variable (E : ExactSqrt K) (pq : PriorityQueue S K dim Q) (pos : S → NVector K dim)

/-- The states of `m` within `d` come out in the order of their distances, and
then `NULL` for ever. -/
def YieldsScan (t : NKDTree S K dim Q) (m : Multiset S) (q : NVector K dim) (d : K) : Prop :=
  ∃ out : List S, (out : Multiset S) = m.filter (fun s => dist E q (pos s) < d) ∧
    out.Pairwise (fun s s' => dist E q (pos s) ≤ dist E q (pos s')) ∧
    ∃ enough, ∀ fuel, enough ≤ fuel → ∀ i,
      nextNearest E pq pos fuel i (startQuery E pq t q d) =
        some (out[i]?.map fun s => (s, dist E q (pos s)))

/-- A state of `m` nearest to `s`, if one is within `d`; else `NULL`. -/
def FindsNearest (t : NKDTree S K dim Q) (m : Multiset S) (s : S) (d : K) : Prop :=
  let r := (getOnlyNearest E pos t s d).1
  (∃ s' ∈ m, r = (some s', dist E (pos s) (pos s')) ∧ dist E (pos s) (pos s') < d ∧
      ∀ s'' ∈ m, dist E (pos s) (pos s') ≤ dist E (pos s) (pos s'')) ∨
    r = (none, d) ∧ ∀ s'' ∈ m, ¬ dist E (pos s) (pos s'') < d

end Scans

-- ---------------------------------------------------------------------------
-- The iterative query
-- ---------------------------------------------------------------------------

section Iterative

variable (E : ExactSqrt K) (pos : S → NVector K dim) (q : NVector K dim) (d : K)

def nodeEntry : Node S K dim → List (QueryNode S K dim)
  | .null => []
  | .node box sd th states n c0 c1 =>
    if distFromBox E q box < d then
      [⟨distFromBox E q box, .node box sd th states n c0 c1, none⟩]
    else []

def stateEntry (s : S) : List (QueryNode S K dim) :=
  if dist E q (pos s) < d then [⟨dist E q (pos s), .null, some s⟩] else []

def expand : Node S K dim → List (QueryNode S K dim)
  | .null => []
  | .node _ _ _ states _ c0 c1 =>
    nodeEntry E q d c0 ++ nodeEntry E q d c1 ++ states.flatMap (stateEntry E pos q d)

def within (m : Multiset S) : Multiset (S × K) :=
  (m.filter fun s => dist E q (pos s) < d).map fun s => (s, dist E q (pos s))

def entryHolds (qn : QueryNode S K dim) : Multiset (S × K) :=
  match qn.state with
  | some s => {(s, qn.dist)}
  | none => within E pos q d qn.node.stored

def Fits (qn : QueryNode S K dim) : Prop :=
  qn.state = none → qn.node.Sound pos ∧ ∀ s ∈ qn.node.stored, qn.dist ≤ dist E q (pos s)

def nodeCount : Node S K dim → ℕ
  | .null => 1
  | .node _ _ _ _ _ c0 c1 => nodeCount c0 + nodeCount c1 + 1

def entrySize (qn : QueryNode S K dim) : ℕ :=
  match qn.state with
  | some _ => 0
  | none => nodeCount qn.node

def readEntry (qn : QueryNode S K dim) : S × K ⊕ List (QueryNode S K dim) :=
  match qn.state with
  | some s => .inl (s, qn.dist)
  | none => .inr (expand E pos q d qn.node)

variable {E pos q d}

theorem readEntry_item {qn : QueryNode S K dim} {b : S × K} :
    readEntry E pos q d qn = .inl b ↔ ∃ s, qn.state = some s ∧ b = (s, qn.dist) := by
  rw [readEntry]
  cases qn.state <;> simp [eq_comm]

theorem readEntry_group {qn : QueryNode S K dim} {qns : List (QueryNode S K dim)} :
    readEntry E pos q d qn = .inr qns ↔ qn.state = none ∧ qns = expand E pos q d qn.node := by
  rw [readEntry]
  cases qn.state <;> simp [eq_comm]

@[simp] theorem within_add (m m' : Multiset S) :
    within E pos q d (m + m') = within E pos q d m + within E pos q d m' := by
  simp [within]

theorem nodeEntry_size (p : Node S K dim) :
    ((nodeEntry E q d p).map entrySize).sum ≤ nodeCount p := by
  cases p with
  | null => simp [nodeEntry]
  | node box sd th states n c0 c1 =>
    rw [nodeEntry]
    split <;> simp [entrySize]

theorem stateEntries_size (states : List S) :
    ((states.flatMap (stateEntry E pos q d)).map entrySize).sum = 0 := by
  induction states with
  | nil => rfl
  | cons s states ih =>
    rw [List.flatMap_cons, List.map_append, List.sum_append, ih, stateEntry]
    split <;> simp [entrySize]

theorem stateEntries_hold (states : List S) :
    Multiset.bind (states.flatMap (stateEntry E pos q d) : List (QueryNode S K dim))
      (entryHolds E pos q d) = within E pos q d states := by
  induction states with
  | nil => rfl
  | cons s states ih =>
    rw [List.flatMap_cons, ← Multiset.coe_add, Multiset.add_bind, ih, ← Multiset.cons_coe,
      ← Multiset.singleton_add, within_add, stateEntry]
    split <;> rename_i hs <;> simp [entryHolds, within, hs, Multiset.filter_singleton]

theorem expand_size (p : Node S K dim) :
    ((expand E pos q d p).map entrySize).sum < nodeCount p := by
  cases p with
  | null => simp [expand, nodeCount]
  | node box sd th states n c0 c1 =>
    have h0 := nodeEntry_size (E := E) (q := q) (d := d) c0
    have h1 := nodeEntry_size (E := E) (q := q) (d := d) c1
    rw [expand, List.map_append, List.map_append, List.sum_append, List.sum_append,
      stateEntries_size, nodeCount]
    omega

theorem dist_le_of_mem {qn : QueryNode S K dim} (h : Fits E pos q qn) {b : S × K}
    (hb : b ∈ entryHolds E pos q d qn) : qn.dist ≤ b.2 := by
  rw [entryHolds] at hb
  cases hstate : qn.state with
  | some s =>
    rw [hstate, Multiset.mem_singleton] at hb
    rw [hb]
  | none =>
    rw [hstate] at hb
    obtain ⟨s, hs, rfl⟩ := Multiset.mem_map.mp hb
    exact (h hstate).2 s (Multiset.mem_of_mem_filter hs)

variable {pq : PriorityQueue S K dim Q}

theorem addNodeToSearchQueue_eq (t : NKDTree S K dim Q) (p : Node S K dim) :
    addNodeToSearchQueue E pq t p =
      { t with queue := pq.pushAll (nodeEntry E t.query_point t.query_max_dist p) t.queue } := by
  cases p with
  | null => rfl
  | node box sd th states n c0 c1 =>
    simp only [addNodeToSearchQueue, nodeEntry]
    split <;> rfl

theorem addStates_eq (states : List S) (t : NKDTree S K dim Q) :
    states.foldl (addStateToSearchQueue E pq pos) t =
      { t with
        queue := pq.pushAll
          (states.flatMap (stateEntry E pos t.query_point t.query_max_dist)) t.queue } := by
  induction states generalizing t with
  | nil => rfl
  | cons s states ih =>
    rw [List.foldl_cons, ih, List.flatMap_cons, pq.pushAll_append]
    simp only [addStateToSearchQueue, stateEntry]
    split <;> rfl

theorem startQuery_queue (E : ExactSqrt K) (pq : PriorityQueue S K dim Q) (q : NVector K dim)
    (d : K) (t : NKDTree S K dim Q) :
    (startQuery E pq t q d).query_point = q ∧ (startQuery E pq t q d).query_max_dist = d ∧
      (startQuery E pq t q d).queue = pq.pushAll (nodeEntry E q d t.root) pq.empty := by
  rw [startQuery, addNodeToSearchQueue_eq]
  exact ⟨rfl, rfl, rfl⟩

variable [IsStrictOrderedRing K]

theorem nodeEntry_hold {p : Node S K dim} (h : p.Sound pos) :
    Multiset.bind (nodeEntry E q d p : List (QueryNode S K dim)) (entryHolds E pos q d) =
      within E pos q d p.stored := by
  cases p with
  | null => rfl
  | node box sd th states n c0 c1 =>
    rw [nodeEntry]
    split
    · simp [entryHolds]
    · rename_i hfar
      have hnone : ∀ s ∈ (Node.node box sd th states n c0 c1).stored, ¬ dist E q (pos s) < d :=
        fun s hs hlt => hfar ((distFromBox_le E (h.contains s hs) q).trans_lt hlt)
      rw [within, Multiset.filter_eq_nil.mpr hnone]
      rfl

theorem nodeEntry_fits {p : Node S K dim} (h : p.Sound pos) :
    ∀ qn ∈ nodeEntry E q d p, Fits E pos q qn := by
  cases p with
  | null => simp [nodeEntry]
  | node box sd th states n c0 c1 =>
    intro qn hqn
    rw [nodeEntry] at hqn
    split at hqn
    · rw [List.mem_singleton.mp hqn]
      exact fun _ => ⟨h, fun s hs => distFromBox_le E (h.contains s hs) q⟩
    · cases hqn

theorem expand_hold {p : Node S K dim} (h : p.Sound pos) :
    Multiset.bind (expand E pos q d p : List (QueryNode S K dim)) (entryHolds E pos q d) =
      within E pos q d p.stored := by
  cases p with
  | null => rfl
  | node box sd th states n c0 c1 =>
    obtain ⟨h0, h1⟩ := h.children
    rw [expand, ← Multiset.coe_add, ← Multiset.coe_add, Multiset.add_bind, Multiset.add_bind,
      nodeEntry_hold h0, nodeEntry_hold h1, stateEntries_hold, ← within_add, ← within_add,
      Node.stored]
    congr 1
    abel

theorem expand_fits {p : Node S K dim} (h : p.Sound pos) :
    ∀ qn ∈ expand E pos q d p, Fits E pos q qn := by
  cases p with
  | null => simp [expand]
  | node box sd th states n c0 c1 =>
    obtain ⟨h0, h1⟩ := h.children
    intro qn hqn
    rw [expand, List.mem_append, List.mem_append] at hqn
    rcases hqn with (hqn | hqn) | hqn
    · exact nodeEntry_fits h0 qn hqn
    · exact nodeEntry_fits h1 qn hqn
    · obtain ⟨s, -, hs⟩ := List.mem_flatMap.mp hqn
      rw [stateEntry] at hs
      split at hs
      · rw [List.mem_singleton.mp hs]
        intro hstate
        cases hstate
      · cases hs

@[reducible] def search (E : ExactSqrt K) (pos : S → NVector K dim) (q : NVector K dim) (d : K) :
    Search (QueryNode S K dim) (S × K) K where
  key := QueryNode.dist
  rank := Prod.snd
  read := readEntry E pos q d
  Good := Fits E pos q
  inside := entryHolds E pos q d
  size := entrySize
  inside_item qn b _ hread := by
    obtain ⟨s, hstate, rfl⟩ := readEntry_item.mp hread
    simp [entryHolds, hstate]
  key_item qn b _ hread := by
    obtain ⟨s, hstate, rfl⟩ := readEntry_item.mp hread
    rfl
  inside_group qn qns hfits hread := by
    obtain ⟨hstate, rfl⟩ := readEntry_group.mp hread
    rw [expand_hold (hfits hstate).1]
    simp [entryHolds, hstate]
  good_group qn qns hfits hread := by
    obtain ⟨hstate, rfl⟩ := readEntry_group.mp hread
    exact expand_fits (hfits hstate).1
  size_group qn qns _ hread := by
    obtain ⟨hstate, rfl⟩ := readEntry_group.mp hread
    have hsize : ((expand E pos q d qn.node).map entrySize).sum < nodeCount qn.node :=
      expand_size qn.node
    simpa [entrySize, hstate] using hsize
  key_le qn hfits b hb := dist_le_of_mem hfits hb

theorem getNextNearest_eq (fuel : ℕ) (t : NKDTree S K dim Q) :
    getNextNearest E pq pos fuel t =
      ((search E pos t.query_point t.query_max_dist).next pq fuel t.queue).map
        fun r => (r.1, { t with queue := r.2 }) := by
  induction fuel generalizing t with
  | zero => rfl
  | succ fuel ih =>
    rw [getNextNearest, Search.next]
    cases hpop : pq.pop t.queue with
    | none => rfl
    | some popped =>
      obtain ⟨⟨qdist, node, state⟩, queue⟩ := popped
      cases state with
      | some s => rfl
      | none =>
        cases node with
        | null => exact ih _
        | node box sd th states n c0 c1 =>
          simp only [addStates_eq, addNodeToSearchQueue_eq]
          rw [ih, ← pq.pushAll_append, ← pq.pushAll_append, ← List.append_assoc]
          rfl

theorem nextNearest_eq (fuel i : ℕ) (t : NKDTree S K dim Q) :
    nextNearest E pq pos fuel i t =
      (search E pos t.query_point t.query_max_dist).nth pq fuel i t.queue := by
  induction i generalizing t with
  | zero => simp [nextNearest, Search.nth, getNextNearest_eq, Function.comp_def]
  | succ i ih =>
    rw [nextNearest, Search.nth, getNextNearest_eq]
    simp [Option.bind_map, ih]

theorem yields_scan {t : NKDTree S K dim Q} {m : Multiset S} (h : t.root.Stores pos m) :
    YieldsScan E pq pos t m q d := by
  obtain ⟨hsound, rfl⟩ := h
  obtain ⟨hpoint, hdist, hqueue⟩ := startQuery_queue E pq q d t
  have hempty : (search E pos q d).Sound pq pq.empty := by
    intro qn hqn
    rw [pq.entries_empty] at hqn
    exact absurd hqn (Multiset.notMem_zero qn)
  obtain ⟨out, hout, hsorted, hnth⟩ :=
    Search.enumerates (Search.sound_pushAll hempty (nodeEntry_fits hsound))
  rw [Search.pending_pushAll, Search.pending, pq.entries_empty, Multiset.zero_bind,
    add_zero] at hout
  replace hout := hout.trans (nodeEntry_hold hsound)
  have hdist_out : ∀ b ∈ out, (b.1, dist E q (pos b.1)) = b := by
    intro b hb
    rw [← Multiset.mem_coe, hout] at hb
    obtain ⟨s, -, rfl⟩ := Multiset.mem_map.mp hb
    rfl
  refine ⟨out.map Prod.fst, ?_, ?_, (search E pos q d).weight pq
    (pq.pushAll (nodeEntry E q d t.root) pq.empty) + 1, ?_⟩
  · rw [← Multiset.map_coe, hout, within, Multiset.map_map]
    exact Multiset.map_id' _
  · refine List.pairwise_map.mpr (hsorted.imp_of_mem fun {b c} hb hc hle => ?_)
    rw [← hdist_out b hb, ← hdist_out c hc] at hle
    exact hle
  · intro fuel hfuel i
    have hlist : out = (out.map Prod.fst).map fun s => (s, dist E q (pos s)) := by
      rw [List.map_map]
      exact ((List.map_congr_left hdist_out).trans (List.map_id' out)).symm
    rw [nextNearest_eq, hpoint, hdist, hqueue, hnth fuel hfuel i]
    nth_rewrite 1 [hlist]
    rw [List.getElem?_map]

end Iterative

-- ---------------------------------------------------------------------------
-- The single query
-- ---------------------------------------------------------------------------

section Single

variable (E : ExactSqrt K) (pos : S → NVector K dim) (q : NVector K dim)

/-- From `r`, the states `m` lead to `r'`: the nearest of them, where one is
nearer than what `r` has. -/
structure Nearest (m : Multiset S) (r r' : Option S × K) : Prop where
  le : ∀ s ∈ m, r'.2 ≤ dist E q (pos s)
  found : r' = r ∨ r'.2 < r.2 ∧ ∃ s ∈ m, r' = (some s, dist E q (pos s))

variable {E pos q} {m m' : Multiset S} {r r' r'' : Option S × K}

theorem Nearest.bound_le (h : Nearest E pos q m r r') : r'.2 ≤ r.2 := by
  rcases h.found with rfl | ⟨hlt, -⟩
  · exact le_rfl
  · exact hlt.le

theorem Nearest.trans (h : Nearest E pos q m r r') (h' : Nearest E pos q m' r' r'') :
    Nearest E pos q (m + m') r r'' := by
  constructor
  · intro s hs
    rcases Multiset.mem_add.mp hs with hs | hs
    · exact h'.bound_le.trans (h.le s hs)
    · exact h'.le s hs
  · rcases h'.found with rfl | ⟨hlt, s, hs, rfl⟩
    · rcases h.found with rfl | ⟨hlt, s, hs, rfl⟩
      · exact .inl rfl
      · exact .inr ⟨hlt, s, Multiset.mem_add.mpr (.inl hs), rfl⟩
    · exact .inr ⟨hlt.trans_le h.bound_le, s, Multiset.mem_add.mpr (.inr hs), rfl⟩

theorem nearest_of_far (h : ∀ s ∈ m, r.2 ≤ dist E q (pos s)) : Nearest E pos q m r r :=
  ⟨h, .inl rfl⟩

theorem nearest_states (states : List S) :
    Nearest E pos q states r (states.foldl (fun r s =>
      let d := dist E q (pos s)
      if d < r.2 then (some s, d) else r) r) := by
  induction states generalizing r with
  | nil => exact nearest_of_far (by simp)
  | cons s states ih =>
    rw [List.foldl_cons, ← Multiset.cons_coe, ← Multiset.singleton_add]
    refine Nearest.trans ?_ ih
    simp only
    split
    · rename_i hlt
      exact ⟨by simp, .inr ⟨hlt, s, by simp, rfl⟩⟩
    · rename_i hge
      exact nearest_of_far (by simpa using hge)

variable [IsStrictOrderedRing K]

theorem getOnlyNearest_nearest {p : Node S K dim} (h : p.Sound pos) (r : Option S × K) :
    Nearest E pos q p.stored r (Node.getOnlyNearest E pos q p r) := by
  induction p generalizing r with
  | null => exact nearest_of_far (by simp [Node.stored])
  | node box sd th states n c0 c1 ih0 ih1 =>
    rw [Node.getOnlyNearest]
    by_cases hfar : r.2 < distFromBox E q box
    · rw [if_pos hfar]
      exact nearest_of_far fun s hs => hfar.le.trans (distFromBox_le E (h.contains s hs) q)
    rw [if_neg hfar]
    cases h with
    | leaf hbox =>
      have hstored : (Node.node box sd th states states.length .null .null).stored = states := by
        simp [Node.stored]
      rw [hstored]
      by_cases hne : states ≠ []
      · rw [if_pos hne]
        exact nearest_states states
      · obtain rfl : states = [] := not_not.mp hne
        have hnone : Nearest E pos q 0 r r := nearest_of_far (by simp)
        simpa [Node.getOnlyNearest] using hnone
    | inner hbox hnull h0 h1 =>
      rw [if_neg (by simp)]
      have hstored : (Node.node box sd th [] 0 c0 c1).stored = c0.stored + c1.stored := by
        simp [Node.stored]
      rw [hstored]
      split
      · rw [add_comm]
        exact (ih1 h1 r).trans (ih0 h0 _)
      · exact (ih0 h0 r).trans (ih1 h1 _)

theorem finds_nearest {t : NKDTree S K dim Q} (h : t.root.Stores pos m) (s : S) (d : K) :
    FindsNearest E pos t m s d := by
  obtain ⟨hsound, rfl⟩ := h
  have hnearest := getOnlyNearest_nearest (E := E) (q := pos s) hsound (none, d)
  rcases hnearest.found with hr | ⟨hlt, s', hs', hr⟩
  · refine .inr ⟨hr, fun s'' hs'' => not_lt.mpr ?_⟩
    have hle := hnearest.le s'' hs''
    rwa [hr] at hle
  · rw [hr] at hlt
    refine .inl ⟨s', hs', hr, hlt, fun s'' hs'' => ?_⟩
    have hle := hnearest.le s'' hs''
    rwa [hr] at hle

end Single

-- ---------------------------------------------------------------------------
-- Both queries
-- ---------------------------------------------------------------------------

/-- Whatever the memory of the tree held when it was constructed. -/
theorem queries_eq_scan [IsStrictOrderedRing K] [NeZero dim] (E : ExactSqrt K)
    (pq : PriorityQueue S K dim Q) (pos : S → NVector K dim) (memory : NKDTree S K dim Q)
    (changes : List (Change S)) :
    let t := changes.foldl (apply pos) (construct pq memory)
    (∀ q d, YieldsScan E pq pos t (added changes) q d) ∧
      ∀ s d, FindsNearest E pos t (added changes) s d := by
  have hstores : (changes.foldl (apply pos) (construct pq memory)).root.Stores pos
      (added changes) := apply_stores null_stores changes
  exact ⟨fun q d => yields_scan hstores, fun s d => finds_nearest hstores s d⟩

noncomputable def realSqrt : ExactSqrt ℝ where
  sqrt := Real.sqrt
  sqrt_nonneg := Real.sqrt_nonneg
  mul_self_sqrt _ h := Real.mul_self_sqrt h

theorem queries_eq_scan_two_points :
    let pq : PriorityQueue (NVector ℝ 2) ℝ 2 _ := sortedQueue QueryNode.dist
    let changes := [.add ![0, 0], .build, .add ![3, 4]]
    let t := changes.foldl (apply id) (construct pq ⟨.null, true, ![1, 1], 0, pq.empty⟩)
    (∀ q d, YieldsScan realSqrt pq id t (added changes) q d) ∧
      ∀ s d, FindsNearest realSqrt id t (added changes) s d :=
  queries_eq_scan realSqrt _ id _ _

end LARCmaCS.NKDTree
