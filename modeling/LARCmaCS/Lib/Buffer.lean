import Mathlib.Logic.Function.Basic

/-!
# Buffers

Memory of a fixed size. A read outside it has no result. `overwrite` is what a
loop leaves that stores a list in memory.
-/

/-- `data` is the memory from the buffer's first entry; its own entries are
those below `size`. -/
structure Buffer (α : Type*) where
  size : Nat
  data : Nat → α

namespace Buffer

variable {α : Type*} {b : Buffer α} {i : Nat}

def read (b : Buffer α) (i : Nat) : Option α := if i < b.size then some (b.data i) else none

theorem read_of_lt (h : i < b.size) : b.read i = some (b.data i) := if_pos h

theorem read_of_le (h : b.size ≤ i) : b.read i = none := if_neg (Nat.not_lt.mpr h)

/-- The memory `data` with `xs` from index `i` on. -/
def overwrite (data : Nat → α) (i : Nat) (xs : List α) (k : Nat) : α :=
  if k < i then data k else xs[k - i]?.getD (data k)

theorem overwrite_nil (data : Nat → α) (i : Nat) : overwrite data i [] = data := by
  funext k
  simp [overwrite]

theorem overwrite_cons (data : Nat → α) (i : Nat) (x : α) (xs : List α) :
    overwrite (Function.update data i x) (i + 1) xs = overwrite data i (x :: xs) := by
  funext k
  rw [overwrite, overwrite]
  rcases Nat.lt_trichotomy k i with hlt | rfl | hgt
  · rw [if_pos (by omega), if_pos hlt, Function.update_of_ne (by omega)]
  · rw [if_pos (by omega), if_neg (by omega), Function.update_self, Nat.sub_self]
    rfl
  · obtain ⟨j, rfl⟩ : ∃ j, k = i + 1 + j := ⟨k - (i + 1), by omega⟩
    rw [if_neg (by omega), if_neg (by omega), Function.update_of_ne (by omega),
      Nat.add_sub_cancel_left, Nat.add_assoc, Nat.add_sub_cancel_left, Nat.add_comm 1 j,
      List.getElem?_cons_succ]

end Buffer
