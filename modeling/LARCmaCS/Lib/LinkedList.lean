import Mathlib.Data.List.Nodup
import Mathlib.Logic.Function.Basic
import Mathlib.Tactic.Common

/-!
# Linked lists in memory

Cells are threaded into stacks: every stack has a pointer to its first cell,
every cell a pointer to the next. `drain_spec`: the loop that takes the cells
of one stack off and pushes each on the stack of its key ends, reverses their
order, and leaves the pointers of all other cells alone.
-/

namespace Linked

variable {α κ : Type*}

/-- From `p` the pointers lead through the cells `xs` to the end of the list. -/
def Chain (next : α → Option α) : Option α → List α → Prop
  | p, [] => p = none
  | p, x :: xs => p = some x ∧ Chain next (next x) xs

theorem Chain.congr {next next' : α → Option α} {p : Option α} {xs : List α}
    (h : Chain next p xs) (heq : ∀ x ∈ xs, next' x = next x) : Chain next' p xs := by
  induction xs generalizing p with
  | nil => exact h
  | cons x xs ih =>
    refine ⟨h.1, ?_⟩
    rw [heq x List.mem_cons_self]
    exact ih h.2 fun y hy => heq y (List.mem_cons_of_mem _ hy)

theorem Chain.unique {next : α → Option α} {p : Option α} {xs ys : List α}
    (hxs : Chain next p xs) (hys : Chain next p ys) : xs = ys := by
  induction xs generalizing p ys with
  | nil =>
    cases ys with
    | nil => rfl
    | cons y ys => cases hxs.symm.trans hys.1
  | cons x xs ih =>
    cases ys with
    | nil => cases hys.symm.trans hxs.1
    | cons y ys =>
      obtain rfl : x = y := Option.some.inj (hxs.1.symm.trans hys.1)
      rw [ih hxs.2 hys.2]

theorem Chain.suffix {next : α → Option α} {p : Option α} {xs ys : List α} {x : α}
    (h : Chain next p (xs ++ x :: ys)) : Chain next (next x) ys := by
  induction xs generalizing p with
  | nil => exact h.2
  | cons y xs ih => exact ih h.2

/-- A list that ends does not come back to a cell. -/
theorem Chain.nodup {next : α → Option α} {p : Option α} {xs : List α} (h : Chain next p xs) :
    xs.Nodup := by
  induction xs generalizing p with
  | nil => exact List.nodup_nil
  | cons x xs ih =>
    refine List.nodup_cons.mpr ⟨fun hmem => ?_, ih h.2⟩
    obtain ⟨before, after, rfl⟩ := List.append_of_mem hmem
    have hlength := congrArg List.length (h.2.unique h.2.suffix)
    rw [List.length_append, List.length_cons] at hlength
    omega

theorem chain_range' {next : Nat → Option Nat} {i n : Nat}
    (h : ∀ k, i ≤ k → k < i + n → next k = if k + 1 < i + n then some (k + 1) else none) :
    Chain next (if 0 < n then some i else none) (List.range' i n) := by
  induction n generalizing i with
  | zero => rfl
  | succ n ih =>
    rw [List.range'_succ, if_pos n.succ_pos]
    refine ⟨rfl, ?_⟩
    have hrest := ih (i := i + 1) fun k hk hk' => by
      rw [h k (by omega) (by omega), Nat.add_assoc i 1 n, Nat.add_comm 1 n]
    rw [h i (Nat.le_refl i) (by omega)]
    simpa only [Nat.add_lt_add_iff_left, Nat.lt_add_left_iff_pos] using hrest

structure Stacks (α κ : Type*) where
  next : α → Option α
  head : κ → Option α

/-- The stacks are `lists`, and no cell is on them twice. -/
structure Stacks.Holds (s : Stacks α κ) (lists : κ → List α) : Prop where
  chain : ∀ k, Chain s.next (s.head k) (lists k)
  nodup : ∀ k, (lists k).Nodup
  disjoint : ∀ k l, k ≠ l → (lists k).Disjoint (lists l)

namespace Stacks

section Lists

variable [DecidableEq κ]

def scattered (key : α → κ) (xs : List α) (lists : κ → List α) (k : κ) : List α :=
  (xs.filter (key · = k)).reverse ++ lists k

theorem scattered_cons (key : α → κ) (x : α) (xs : List α) (lists : κ → List α) :
    scattered key (x :: xs) lists =
      scattered key xs (Function.update lists (key x) (x :: lists (key x))) := by
  funext k
  unfold scattered
  rcases eq_or_ne (key x) k with rfl | hk
  · rw [List.filter_cons_of_pos (by simp), List.reverse_cons, List.append_assoc,
      Function.update_self]
    rfl
  · rw [List.filter_cons_of_neg (by simpa using hk), Function.update_of_ne hk.symm]

theorem scattered_concat (key : α → κ) (x : α) (xs : List α) (lists : κ → List α) :
    scattered key (xs ++ [x]) lists =
      Function.update (scattered key xs lists) (key x) (x :: scattered key xs lists (key x)) := by
  funext k
  unfold scattered
  rw [List.filter_append, List.reverse_append, List.append_assoc]
  rcases eq_or_ne (key x) k with rfl | hk
  · rw [List.filter_cons_of_pos (by simp), Function.update_self]
    rfl
  · rw [List.filter_cons_of_neg (by simpa using hk), Function.update_of_ne hk.symm]
    rfl

def clear (s : Stacks α κ) (k : κ) : Stacks α κ :=
  { s with head := Function.update s.head k none }

theorem Holds.clear {s : Stacks α κ} {lists : κ → List α} (hs : s.Holds lists) (k : κ) :
    (s.clear k).Holds (Function.update lists k []) where
  chain l := by
    rcases eq_or_ne l k with rfl | hl
    · rw [Function.update_self]
      exact Function.update_self ..
    · rw [Function.update_of_ne hl, Stacks.clear]
      simp only [Function.update_of_ne hl]
      exact hs.chain l
  nodup l := by
    rcases eq_or_ne l k with rfl | hl
    · rw [Function.update_self]
      exact List.nodup_nil
    · rw [Function.update_of_ne hl]
      exact hs.nodup l
  disjoint l m hne := by
    rcases eq_or_ne l k with rfl | hl
    · rw [Function.update_self]
      exact List.disjoint_nil_left _
    · rw [Function.update_of_ne hl]
      rcases eq_or_ne m k with rfl | hm
      · rw [Function.update_self]
        exact List.disjoint_nil_right _
      · rw [Function.update_of_ne hm]
        exact hs.disjoint l m hne

end Lists

variable [DecidableEq α] [DecidableEq κ]

def push (s : Stacks α κ) (k : κ) (x : α) : Stacks α κ where
  next := Function.update s.next x (s.head k)
  head := Function.update s.head k (some x)

theorem push_head_of_ne {s : Stacks α κ} {k l : κ} {x : α} (h : l ≠ k) :
    (s.push k x).head l = s.head l :=
  Function.update_of_ne h ..

theorem push_next_of_ne {s : Stacks α κ} {k : κ} {x y : α} (h : y ≠ x) :
    (s.push k x).next y = s.next y :=
  Function.update_of_ne h ..

theorem chain_push {s : Stacks α κ} {x : α} {p : Option α} {xs : List α} (hx : x ∉ xs) (k : κ)
    (h : Chain s.next p xs) : Chain (s.push k x).next p xs :=
  h.congr fun _ hy => push_next_of_ne fun heq => hx (heq ▸ hy)

theorem Holds.push {s : Stacks α κ} {lists : κ → List α} {x : α} (hs : s.Holds lists)
    (hx : ∀ k, x ∉ lists k) (k : κ) :
    (s.push k x).Holds (Function.update lists k (x :: lists k)) where
  chain l := by
    rcases eq_or_ne l k with rfl | hl
    · rw [Function.update_self]
      have hnext : (s.push l x).next x = s.head l := Function.update_self ..
      refine ⟨Function.update_self .., ?_⟩
      rw [hnext]
      exact chain_push (hx l) l (hs.chain l)
    · rw [Function.update_of_ne hl, push_head_of_ne hl]
      exact chain_push (hx l) k (hs.chain l)
  nodup l := by
    rcases eq_or_ne l k with rfl | hl
    · rw [Function.update_self]
      exact List.nodup_cons.mpr ⟨hx l, hs.nodup l⟩
    · rw [Function.update_of_ne hl]
      exact hs.nodup l
  disjoint l m hne := by
    rcases eq_or_ne l k with rfl | hl
    · rw [Function.update_self, Function.update_of_ne hne.symm, List.disjoint_cons_left]
      exact ⟨hx m, hs.disjoint l m hne⟩
    · rw [Function.update_of_ne hl]
      rcases eq_or_ne m k with rfl | hm
      · rw [Function.update_self, List.disjoint_cons_right]
        exact ⟨hx l, hs.disjoint l m hne⟩
      · rw [Function.update_of_ne hm]
        exact hs.disjoint l m hne

/-- Every cell of the list at `p` is pushed on the stack of its key; no result
after `fuel` cells. -/
def scatter (key : α → κ) : (fuel : Nat) → Option α → Stacks α κ → Option (Stacks α κ)
  | _, none, s => some s
  | 0, some _, _ => none
  | fuel + 1, some x, s => scatter key fuel (s.next x) (s.push (key x) x)

/-- Empties the stack of `k` onto the stacks of the keys of its cells. -/
def drain (s : Stacks α κ) (fuel : Nat) (key : α → κ) (k : κ) : Option (Stacks α κ) :=
  scatter key fuel (s.head k) (s.clear k)

theorem scatter_spec {key : α → κ} {fuel : Nat} {p : Option α} {xs : List α} {s : Stacks α κ}
    {lists : κ → List α} (hp : Chain s.next p xs) (hxs : xs.Nodup) (hs : s.Holds lists)
    (hdisjoint : ∀ k, xs.Disjoint (lists k)) (hfuel : xs.length ≤ fuel) :
    ∃ s', scatter key fuel p s = some s' ∧ s'.Holds (scattered key xs lists) ∧
      ∀ y ∉ xs, s'.next y = s.next y := by
  induction xs generalizing fuel p s lists with
  | nil =>
    cases hp
    exact ⟨s, by cases fuel <;> rfl, hs, fun _ _ => rfl⟩
  | cons x xs ih =>
    obtain ⟨rfl, hnext⟩ := hp
    obtain ⟨hx, hxs⟩ := List.nodup_cons.mp hxs
    cases fuel with
    | zero => cases hfuel
    | succ fuel =>
      have hnew (k : κ) : x ∉ lists k := fun hk => hdisjoint k List.mem_cons_self hk
      have hrest (k : κ) :
          xs.Disjoint (Function.update lists (key x) (x :: lists (key x)) k) := by
        rcases eq_or_ne k (key x) with rfl | hk
        · rw [Function.update_self, List.disjoint_cons_right]
          exact ⟨hx, (List.disjoint_cons_left.mp (hdisjoint (key x))).2⟩
        · rw [Function.update_of_ne hk]
          exact (List.disjoint_cons_left.mp (hdisjoint k)).2
      obtain ⟨s', hscatter, hholds, hframe⟩ := ih (chain_push hx (key x) hnext) hxs
        (hs.push hnew (key x)) hrest (Nat.le_of_succ_le_succ hfuel)
      refine ⟨s', hscatter, by rwa [scattered_cons], fun y hy => ?_⟩
      rw [hframe y (List.not_mem_of_not_mem_cons hy),
        push_next_of_ne (List.ne_of_not_mem_cons hy)]

theorem drain_spec {fuel : Nat} {s : Stacks α κ} {lists : κ → List α} (key : α → κ)
    (hs : s.Holds lists) (k : κ) (hfuel : (lists k).length ≤ fuel) :
    ∃ s', s.drain fuel key k = some s' ∧
      s'.Holds (scattered key (lists k) (Function.update lists k [])) ∧
      ∀ y ∉ lists k, s'.next y = s.next y := by
  refine scatter_spec (hs.chain k) (hs.nodup k) (hs.clear k) (fun l => ?_) hfuel
  rcases eq_or_ne l k with rfl | hl
  · rw [Function.update_self]
    exact List.disjoint_nil_right _
  · rw [Function.update_of_ne hl]
    exact hs.disjoint k l hl.symm

end Stacks

end Linked
