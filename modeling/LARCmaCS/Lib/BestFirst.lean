import Mathlib.Tactic.Common
import Mathlib.Algebra.GroupWithZero.Nat
import Mathlib.Data.List.Sort
import Mathlib.Data.Multiset.Bind
import Mathlib.Order.Lattice

/-!
# Best-first search

Entries wait in a queue that gives out one of least key. An entry is an item,
or a group of further entries; a group's key is a lower bound for the rank of
every item inside. Popping, and putting back what a popped group holds, gives
out all the items in the order of their ranks: `Search.enumerates`.
-/

namespace LARCmaCS.BestFirst

-- ---------------------------------------------------------------------------
-- Queues
-- ---------------------------------------------------------------------------

/-- Among entries of one key the queue may give out any. -/
structure LeastQueue (Q : Type) {α K : Type} [LE K] (key : α → K) where
  empty : Q
  push : α → Q → Q
  pop : Q → Option (α × Q)
  entries : Q → Multiset α
  entries_empty : entries empty = 0
  entries_push : ∀ a q, entries (push a q) = a ::ₘ entries q
  entries_of_pop_none : ∀ q, pop q = none → entries q = 0
  entries_of_pop : ∀ q a q', pop q = some (a, q') → entries q = a ::ₘ entries q'
  least_of_pop : ∀ q a q', pop q = some (a, q') → ∀ b ∈ entries q', key a ≤ key b

attribute [simp] LeastQueue.entries_empty LeastQueue.entries_push

namespace LeastQueue

variable {Q α K : Type} [LE K] {key : α → K} (queue : LeastQueue Q key)

def pushAll (as : List α) (q : Q) : Q := as.foldl (fun q a => queue.push a q) q

@[simp] theorem pushAll_nil (q : Q) : queue.pushAll [] q = q := rfl

theorem pushAll_append (as bs : List α) (q : Q) :
    queue.pushAll (as ++ bs) q = queue.pushAll bs (queue.pushAll as q) :=
  List.foldl_append

@[simp] theorem entries_pushAll (as : List α) (q : Q) :
    queue.entries (queue.pushAll as q) = as + queue.entries q := by
  induction as generalizing q with
  | nil => simp
  | cons a as ih =>
    have htail := ih (queue.push a q)
    rw [entries_push, Multiset.add_cons] at htail
    rw [← Multiset.cons_coe, Multiset.cons_add]
    exact htail

end LeastQueue

def sortedQueue {α K : Type} [LinearOrder K] (key : α → K) :
    LeastQueue {l : List α // l.Pairwise fun a b => key a ≤ key b} key where
  empty := ⟨[], .nil⟩
  push a q := ⟨q.1.orderedInsert (fun a b => key a ≤ key b) a, by
    have htotal : Std.Total fun a b : α => key a ≤ key b := ⟨fun a b => le_total _ _⟩
    have htrans : IsTrans α fun a b => key a ≤ key b := ⟨fun _ _ _ => le_trans⟩
    exact List.Pairwise.orderedInsert a q.1 q.2⟩
  pop
    | ⟨[], _⟩ => none
    | ⟨a :: l, h⟩ => some (a, ⟨l, h.of_cons⟩)
  entries q := q.1
  entries_empty := rfl
  entries_push a q := Multiset.coe_eq_coe.mpr (List.perm_orderedInsert _ a q.1)
  entries_of_pop_none q h := by
    obtain ⟨_ | ⟨b, l⟩, hl⟩ := q
    · rfl
    · cases h
  entries_of_pop q a q' h := by
    obtain ⟨_ | ⟨b, l⟩, hl⟩ := q
    · cases h
    · cases h
      rfl
  least_of_pop q a q' h := by
    obtain ⟨_ | ⟨b, l⟩, hl⟩ := q
    · cases h
    · cases h
      exact (List.pairwise_cons.mp hl).1

-- ---------------------------------------------------------------------------
-- The search
-- ---------------------------------------------------------------------------

/-- What an entry stands for. The laws hold of the entries `Good`, and what a
good entry holds is good. -/
structure Search (α β K : Type) [LE K] where
  key : α → K
  rank : β → K
  read : α → β ⊕ List α
  Good : α → Prop
  inside : α → Multiset β
  size : α → ℕ
  inside_item : ∀ a b, Good a → read a = .inl b → inside a = {b}
  key_item : ∀ a b, Good a → read a = .inl b → key a = rank b
  inside_group : ∀ a as, Good a → read a = .inr as → inside a = (as : Multiset α).bind inside
  good_group : ∀ a as, Good a → read a = .inr as → ∀ b ∈ as, Good b
  size_group : ∀ a as, Good a → read a = .inr as → (as.map size).sum < size a
  key_le : ∀ a, Good a → ∀ b ∈ inside a, key a ≤ rank b

namespace Search

variable {Q α β K : Type}

/-- The next item, or `none` from an empty queue; undefined when `fuel` entries
were opened before. -/
def next [LE K] (search : Search α β K) (queue : LeastQueue Q search.key) :
    ℕ → Q → Option (Option β × Q)
  | 0, _ => none
  | fuel + 1, q =>
    match queue.pop q with
    | none => some (none, q)
    | some (a, q') =>
      match search.read a with
      | .inl b => some (some b, q')
      | .inr as => next search queue fuel (queue.pushAll as q')

section Laws

variable [Preorder K] (search : Search α β K) (queue : LeastQueue Q search.key)

def pending (q : Q) : Multiset β := (queue.entries q).bind search.inside

def weight (q : Q) : ℕ := ((queue.entries q).map search.size).sum

def Sound (q : Q) : Prop := ∀ a ∈ queue.entries q, search.Good a

variable {search queue} {q q' : Q} {a : α}

theorem sound_of_pop (hs : search.Sound queue q) (h : queue.pop q = some (a, q')) :
    search.Good a ∧ search.Sound queue q' := by
  rw [Sound, queue.entries_of_pop q a q' h] at hs
  refine ⟨hs a (Multiset.mem_cons_self a _), ?_⟩
  intro b hb
  exact hs b (Multiset.mem_cons_of_mem hb)

theorem pending_of_pop (h : queue.pop q = some (a, q')) :
    search.pending queue q = search.inside a + search.pending queue q' := by
  simp [pending, queue.entries_of_pop q a q' h]

theorem weight_of_pop (h : queue.pop q = some (a, q')) :
    search.weight queue q = search.size a + search.weight queue q' := by
  simp [weight, queue.entries_of_pop q a q' h]

theorem pending_pushAll (as : List α) (q : Q) :
    search.pending queue (queue.pushAll as q) =
      (as : Multiset α).bind search.inside + search.pending queue q := by
  simp [pending]

theorem weight_pushAll (as : List α) (q : Q) :
    search.weight queue (queue.pushAll as q) =
      (as.map search.size).sum + search.weight queue q := by
  simp [weight]

theorem sound_pushAll {as : List α} (hq : search.Sound queue q) (has : ∀ a ∈ as, search.Good a) :
    search.Sound queue (queue.pushAll as q) := by
  intro b hb
  rw [queue.entries_pushAll, Multiset.mem_add] at hb
  rcases hb with hb | hb
  · exact has b (Multiset.mem_coe.mp hb)
  · exact hq b hb

theorem key_le_pending (hs : search.Sound queue q) (h : queue.pop q = some (a, q')) {b : β}
    (hb : b ∈ search.pending queue q) : search.key a ≤ search.rank b := by
  obtain ⟨ha, hs'⟩ := sound_of_pop hs h
  rw [pending_of_pop h, Multiset.mem_add] at hb
  rcases hb with hb | hb
  · exact search.key_le a ha b hb
  · obtain ⟨c, hc, hbc⟩ := Multiset.mem_bind.mp hb
    have hac := queue.least_of_pop q a q' h c hc
    exact hac.trans (search.key_le c (hs' c hc) b hbc)

-- ---------------------------------------------------------------------------
-- One call
-- ---------------------------------------------------------------------------

inductive Answers (search : Search α β K) (queue : LeastQueue Q search.key) (q : Q) :
    Option β → Q → Prop
  | item {b : β} {q' : Q}
      (hpending : search.pending queue q = b ::ₘ search.pending queue q')
      (hleast : ∀ c ∈ search.pending queue q, search.rank b ≤ search.rank c) :
      Answers search queue q (some b) q'
  | done {q' : Q} (hpending : search.pending queue q = 0)
      (hpending' : search.pending queue q' = 0) : Answers search queue q none q'

theorem pending_open {as : List α} (hs : search.Sound queue q) (h : queue.pop q = some (a, q'))
    (hread : search.read a = .inr as) :
    search.pending queue (queue.pushAll as q') = search.pending queue q := by
  have ha := (sound_of_pop hs h).1
  rw [pending_pushAll, pending_of_pop h, search.inside_group a as ha hread]

theorem weight_open {as : List α} (hs : search.Sound queue q) (h : queue.pop q = some (a, q'))
    (hread : search.read a = .inr as) :
    search.weight queue (queue.pushAll as q') < search.weight queue q := by
  have ha := (sound_of_pop hs h).1
  have hsize := search.size_group a as ha hread
  rw [weight_pushAll, weight_of_pop h]
  exact Nat.add_lt_add_right hsize _

theorem next_answers {fuel : ℕ} (hs : search.Sound queue q)
    (hfuel : search.weight queue q < fuel) :
    ∃ r q', search.next queue fuel q = some (r, q') ∧ Answers search queue q r q' ∧
      search.Sound queue q' ∧ search.weight queue q' ≤ search.weight queue q := by
  induction fuel generalizing q with
  | zero => exact absurd hfuel (Nat.not_lt_zero _)
  | succ fuel ih =>
    cases hpop : queue.pop q with
    | none =>
      have hempty : search.pending queue q = 0 := by
        rw [pending, queue.entries_of_pop_none q hpop, Multiset.zero_bind]
      exact ⟨none, q, by simp [next, hpop], .done hempty hempty, hs, le_rfl⟩
    | some popped =>
      obtain ⟨a, q'⟩ := popped
      obtain ⟨ha, hs'⟩ := sound_of_pop hs hpop
      cases hread : search.read a with
      | inl b =>
        have hpending : search.pending queue q = b ::ₘ search.pending queue q' := by
          rw [pending_of_pop hpop, search.inside_item a b ha hread, Multiset.singleton_add]
        refine ⟨some b, q', by simp [next, hpop, hread], .item hpending ?_, hs', ?_⟩
        · intro c hc
          rw [← search.key_item a b ha hread]
          exact key_le_pending hs hpop hc
        · rw [weight_of_pop hpop]
          exact Nat.le_add_left _ _
      | inr as =>
        have hlt := weight_open hs hpop hread
        have hgood := sound_pushAll hs' (search.good_group a as ha hread)
        obtain ⟨r, q'', hnext, hanswers, hs'', hle⟩ := ih hgood (by omega)
        refine ⟨r, q'', by simpa [next, hpop, hread] using hnext, ?_, hs'', hle.trans hlt.le⟩
        have hsame := pending_open hs hpop hread
        cases hanswers with
        | item hpending hleast => exact .item (hsame ▸ hpending) (hsame ▸ hleast)
        | done hpending hpending' => exact .done (hsame ▸ hpending) hpending'

-- ---------------------------------------------------------------------------
-- All calls
-- ---------------------------------------------------------------------------

def nth (search : Search α β K) (queue : LeastQueue Q search.key) (fuel : ℕ) :
    ℕ → Q → Option (Option β)
  | 0, q => (search.next queue fuel q).map Prod.fst
  | i + 1, q => (search.next queue fuel q).bind fun r => nth search queue fuel i r.2

theorem next_mono {fuel more : ℕ} {r : Option β × Q} (h : search.next queue fuel q = some r)
    (hle : fuel ≤ more) : search.next queue more q = some r := by
  induction fuel generalizing q more with
  | zero => cases h
  | succ fuel ih =>
    obtain ⟨more, rfl⟩ := Nat.exists_eq_add_of_le' (Nat.one_le_of_lt hle)
    simp only [next] at h ⊢
    cases hpop : queue.pop q with
    | none => simpa [hpop] using h
    | some popped =>
      rw [hpop] at h
      cases hread : search.read popped.1 with
      | inl b => simpa [hread] using h
      | inr as =>
        simp only [hread] at h ⊢
        exact ih h (Nat.le_of_succ_le_succ hle)

theorem nth_of_pending_eq_zero {fuel : ℕ} (hs : search.Sound queue q)
    (hfuel : search.weight queue q < fuel) (hpending : search.pending queue q = 0) (i : ℕ) :
    search.nth queue fuel i q = some none := by
  induction i generalizing q with
  | zero =>
    obtain ⟨r, q', hnext, hanswers, -, -⟩ := next_answers hs hfuel
    cases hanswers with
    | item hitem _ => simp [hpending] at hitem
    | done _ _ => simp [nth, hnext]
  | succ i ih =>
    obtain ⟨r, q', hnext, hanswers, hs', hle⟩ := next_answers hs hfuel
    cases hanswers with
    | item hitem _ => simp [hpending] at hitem
    | done _ hpending' =>
      rw [nth, hnext]
      exact ih hs' (hle.trans_lt hfuel) hpending'

/-- Calls with enough fuel give out everything that is pending, in the order of
the ranks, and `none` from then on. -/
theorem enumerates (hs : search.Sound queue q) :
    ∃ out : List β, (out : Multiset β) = search.pending queue q ∧
      out.Pairwise (fun b c => search.rank b ≤ search.rank c) ∧
      ∀ fuel, search.weight queue q < fuel → ∀ i, search.nth queue fuel i q = some out[i]? := by
  -- Each item given out is one less to come.
  induction hn : (search.pending queue q).card generalizing q with
  | zero =>
    have hpending := Multiset.card_eq_zero.mp hn
    refine ⟨[], by simp [hpending], .nil, ?_⟩
    intro fuel hfuel i
    simpa using nth_of_pending_eq_zero hs hfuel hpending i
  | succ n ih =>
    obtain ⟨r, q', hnext, hanswers, hs', hle⟩ := next_answers hs (Nat.lt_succ_self _)
    cases hanswers with
    | done hpending _ => simp [hpending] at hn
    | @item b _ hpending hleast =>
      have hcard : (search.pending queue q').card = n := by
        rw [hpending, Multiset.card_cons] at hn
        exact Nat.succ_injective hn
      obtain ⟨out, hout, hsorted, hnth⟩ := ih hs' hcard
      refine ⟨b :: out, by rw [hpending, ← hout, Multiset.cons_coe], ?_, ?_⟩
      · refine List.pairwise_cons.mpr ⟨?_, hsorted⟩
        intro c hc
        apply hleast
        rw [hpending, ← hout]
        exact Multiset.mem_cons_of_mem hc
      · intro fuel hfuel i
        have hfirst := next_mono hnext hfuel
        cases i with
        | zero => simp [nth, hfirst]
        | succ i =>
          rw [nth, hfirst]
          exact hnth fuel (hle.trans_lt hfuel) i

end Laws

end Search

end LARCmaCS.BestFirst
