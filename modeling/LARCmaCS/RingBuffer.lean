import Mathlib.Algebra.Group.Int.Defs
import Mathlib.Data.List.Basic
import Mathlib.Logic.Function.Basic
import LARCmaCS.Lib.Machine

/-!
# The ring buffer

`RingBuffer` of `ringbuffer.h`. Reader and writer never hold the same bin,
whatever the flags (`bins_apart`). Without lapping and without skipping the
bins between them are a queue; the writer leaves it alone as long as it is not
asked to move while the next bin is the reader's (`keepsAll_iff`).
-/

structure LARCmaCS.RingBuffer (ITEM : Type*) where
  items : Int → ITEM
  currentRead : Int
  currentWrite : Int
  previousWrite : Int
  previousRead : Int
  size : Int

namespace LARCmaCS.RingBuffer

variable {ITEM : Type*}

def new (items : Int → ITEM) (size : Int) : RingBuffer ITEM where
  items
  currentRead := 0
  previousRead := -1
  previousWrite := 0
  currentWrite := 1
  size

def next (buf : RingBuffer ITEM) (curIdx notAvail : Int) (preventLap : Bool) : Int :=
  let idx := curIdx + 1
  let idx := if idx ≥ buf.size then 0 else idx
  let idx := if idx < 0 then 0 else idx
  let idx := if idx = notAvail then (if preventLap then curIdx else idx + 1) else idx
  if idx ≥ buf.size ∨ idx = -1 then 0 else idx

def pointer (buf : RingBuffer ITEM) (idx : Int) : Int :=
  let idx := if idx ≥ buf.size then buf.size - 1 else idx
  if idx < 0 then 0 else idx

def getItem (buf : RingBuffer ITEM) (idx : Int) : ITEM := buf.items (buf.pointer idx)

def nextWrite (buf : RingBuffer ITEM) (allowLapping : Bool) : RingBuffer ITEM :=
  { buf with
    previousWrite := buf.currentWrite
    currentWrite := buf.next buf.currentWrite buf.currentRead allowLapping }

def nextRead (buf : RingBuffer ITEM) (skipFrames : Bool) : RingBuffer ITEM :=
  let buf := { buf with previousRead := buf.currentRead }
  if skipFrames then
    let prevFrame :=
      if buf.previousWrite = 0 then buf.size - 1
      else if buf.previousWrite - 1 < 0 then 0
      else buf.previousWrite - 1
    { buf with currentRead := buf.next prevFrame buf.currentWrite true }
  else { buf with currentRead := buf.next buf.currentRead buf.currentWrite true }

def fill (buf : RingBuffer ITEM) (item : ITEM) : RingBuffer ITEM :=
  { buf with items := Function.update buf.items (buf.pointer buf.currentWrite) item }

section fields

variable (buf : RingBuffer ITEM)

@[simp] theorem size_fill (item : ITEM) : (buf.fill item).size = buf.size := rfl
@[simp] theorem size_nextWrite (b : Bool) : (buf.nextWrite b).size = buf.size := rfl
@[simp] theorem size_nextRead (b : Bool) : (buf.nextRead b).size = buf.size := by cases b <;> rfl
@[simp] theorem items_nextWrite (b : Bool) : (buf.nextWrite b).items = buf.items := rfl
@[simp] theorem items_nextRead (b : Bool) : (buf.nextRead b).items = buf.items := by
  cases b <;> rfl
@[simp] theorem currentRead_fill (item : ITEM) : (buf.fill item).currentRead = buf.currentRead := rfl
@[simp] theorem currentRead_nextWrite (b : Bool) :
    (buf.nextWrite b).currentRead = buf.currentRead := rfl
@[simp] theorem currentWrite_nextRead (b : Bool) :
    (buf.nextRead b).currentWrite = buf.currentWrite := by
  cases b <;> rfl

end fields

-- ---------------------------------------------------------------------------
-- Runs
-- ---------------------------------------------------------------------------

inductive Act (ITEM : Type*)
  | fill (item : ITEM)
  | nextWrite (allowLapping : Bool)
  | nextRead (skipFrames : Bool)

/-- What a call did: the writer went from a bin with its content to another
bin, the reader to a bin with its content. -/
inductive Event (ITEM : Type*)
  | filled
  | wrote (bin : Int) (item : ITEM) (bin' : Int)
  | read (bin bin' : Int) (item' : ITEM)

def step (buf : RingBuffer ITEM) : Act ITEM → Option (RingBuffer ITEM × Event ITEM)
  | .fill item => some (buf.fill item, .filled)
  | .nextWrite allowLapping =>
    let buf' := buf.nextWrite allowLapping
    some (buf', .wrote buf.currentWrite (buf.getItem buf.currentWrite) buf'.currentWrite)
  | .nextRead skipFrames =>
    let buf' := buf.nextRead skipFrames
    some (buf', .read buf.currentRead buf'.currentRead (buf'.getItem buf'.currentRead))

theorem step_total (buf : RingBuffer ITEM) (a : Act ITEM) : ∃ next, buf.step a = some next := by
  cases a <;> exact ⟨_, rfl⟩

-- ---------------------------------------------------------------------------
-- Bins in a ring
-- ---------------------------------------------------------------------------

theorem emod_add_one {i n : Int} (h0 : 0 ≤ i) (hn : i < n) :
    (i + 1) % n = if i + 1 = n then 0 else i + 1 := by
  split
  · rename_i h
    rw [h, Int.emod_self]
  · exact Int.emod_eq_of_lt (by omega) (by omega)

theorem emod_add_two {i n : Int} (h0 : 0 ≤ i) (hn : i < n) (h2 : 2 ≤ n) :
    (i + 2) % n = if n ≤ i + 2 then i + 2 - n else i + 2 := by
  split
  · rw [← Int.sub_emod_right]
    exact Int.emod_eq_of_lt (by omega) (by omega)
  · exact Int.emod_eq_of_lt (by omega) (by omega)

theorem add_emod_ne {r n : Int} {i j : Nat} (hij : i < j) (hj : (j : Int) < n + i) :
    (r + i) % n ≠ (r + j) % n := by
  intro h
  have hdiff : ((j : Int) - i) % n = 0 := by
    rw [← Int.emod_eq_emod_iff_emod_sub_eq_zero]
    exact (Int.emod_add_cancel_left.mp h).symm
  rw [Int.emod_eq_of_lt (by omega) (by omega)] at hdiff
  omega

-- ---------------------------------------------------------------------------
-- Reader and writer stay apart
-- ---------------------------------------------------------------------------

theorem next_of_mem {buf : RingBuffer ITEM} {curIdx : Int} (h2 : 2 ≤ buf.size) (h0 : 0 ≤ curIdx)
    (hsize : curIdx < buf.size) (notAvail : Int) (preventLap : Bool) :
    buf.next curIdx notAvail preventLap =
      if (curIdx + 1) % buf.size = notAvail then
        if preventLap then curIdx else (curIdx + 2) % buf.size
      else (curIdx + 1) % buf.size := by
  rw [emod_add_one h0 hsize, emod_add_two h0 hsize h2, next]
  cases preventLap <;> grind

structure Apart (buf : RingBuffer ITEM) : Prop where
  two_le_size : 2 ≤ buf.size
  read_mem : 0 ≤ buf.currentRead ∧ buf.currentRead < buf.size
  write_mem : 0 ≤ buf.currentWrite ∧ buf.currentWrite < buf.size
  previous_mem : 0 ≤ buf.previousWrite ∧ buf.previousWrite < buf.size
  ne : buf.currentRead ≠ buf.currentWrite

theorem apart_new {size : Int} (h : 2 ≤ size) (items : Int → ITEM) : (new items size).Apart where
  two_le_size := h
  read_mem := ⟨Int.le_refl 0, by simp only [new]; omega⟩
  write_mem := ⟨Int.zero_le_ofNat 1, by simp only [new]; omega⟩
  previous_mem := ⟨Int.le_refl 0, by simp only [new]; omega⟩
  ne := by simp [new]

theorem Apart.fill {buf : RingBuffer ITEM} (h : buf.Apart) (item : ITEM) : (buf.fill item).Apart :=
  ⟨h.two_le_size, h.read_mem, h.write_mem, h.previous_mem, h.ne⟩

theorem emod_mem {n : Int} (h2 : 2 ≤ n) (i : Int) : 0 ≤ i % n ∧ i % n < n :=
  ⟨Int.emod_nonneg i (by omega), Int.emod_lt_of_pos i (by omega)⟩

/-- `next` leaves the ring's range for no index in it, and lands on the bin to
avoid only by staying there. -/
theorem next_mem {buf : RingBuffer ITEM} {curIdx : Int} (h2 : 2 ≤ buf.size) (h0 : 0 ≤ curIdx)
    (hsize : curIdx < buf.size) (notAvail : Int) (preventLap : Bool) :
    0 ≤ buf.next curIdx notAvail preventLap ∧ buf.next curIdx notAvail preventLap < buf.size := by
  rw [next_of_mem h2 h0 hsize]
  split
  · split
    · exact ⟨h0, hsize⟩
    · exact emod_mem h2 _
  · exact emod_mem h2 _

theorem next_ne {buf : RingBuffer ITEM} {curIdx : Int} (h2 : 2 ≤ buf.size) (h0 : 0 ≤ curIdx)
    (hsize : curIdx < buf.size) (notAvail : Int) (preventLap : Bool) :
    buf.next curIdx notAvail preventLap ≠ notAvail := by
  rw [next_of_mem h2 h0 hsize]
  split
  · rename_i havail
    rw [← havail]
    split
    · have hself : (curIdx + 0) % buf.size ≠ (curIdx + 1) % buf.size :=
        add_emod_ne (i := 0) (j := 1) (by decide) (by omega)
      rwa [Int.add_zero, Int.emod_eq_of_lt h0 hsize] at hself
    · exact (add_emod_ne (i := 1) (j := 2) (by decide) (by omega)).symm
  · assumption

theorem Apart.nextWrite {buf : RingBuffer ITEM} (h : buf.Apart) (allowLapping : Bool) :
    (buf.nextWrite allowLapping).Apart where
  two_le_size := h.two_le_size
  read_mem := h.read_mem
  write_mem := next_mem h.two_le_size h.write_mem.1 h.write_mem.2 _ _
  previous_mem := h.write_mem
  ne := (next_ne h.two_le_size h.write_mem.1 h.write_mem.2 _ _).symm

/-- Where `nextRead` moves from: the reader's own bin, or the one before the
writer's previous one. Both are in the ring. -/
theorem Apart.nextRead_cases {buf : RingBuffer ITEM} (h : buf.Apart) (skipFrames : Bool) :
    ∃ idx, 0 ≤ idx ∧ idx < buf.size ∧ buf.nextRead skipFrames =
      { buf with
        previousRead := buf.currentRead
        currentRead := buf.next idx buf.currentWrite true } := by
  have hprevious := h.previous_mem
  have hsize := h.two_le_size
  cases skipFrames with
  | false => exact ⟨buf.currentRead, h.read_mem.1, h.read_mem.2, rfl⟩
  | true =>
    refine ⟨if buf.previousWrite = 0 then buf.size - 1 else if buf.previousWrite - 1 < 0 then 0
      else buf.previousWrite - 1, ?_, ?_, rfl⟩ <;> grind

theorem Apart.nextRead {buf : RingBuffer ITEM} (h : buf.Apart) (skipFrames : Bool) :
    (buf.nextRead skipFrames).Apart := by
  obtain ⟨idx, h0, hsize, hread⟩ := h.nextRead_cases skipFrames
  rw [hread]
  exact
    { two_le_size := h.two_le_size
      read_mem := next_mem h.two_le_size h0 hsize _ _
      write_mem := h.write_mem
      previous_mem := h.previous_mem
      ne := next_ne h.two_le_size h0 hsize _ _ }

theorem Apart.step {buf buf' : RingBuffer ITEM} {a : Act ITEM} {e : Event ITEM} (h : buf.Apart)
    (hstep : buf.step a = some (buf', e)) : buf'.Apart := by
  cases a with
  | fill item =>
    obtain ⟨rfl, -⟩ := Prod.mk.inj (Option.some.inj hstep)
    exact h.fill item
  | nextWrite allowLapping =>
    obtain ⟨rfl, -⟩ := Prod.mk.inj (Option.some.inj hstep)
    exact h.nextWrite allowLapping
  | nextRead skipFrames =>
    obtain ⟨rfl, -⟩ := Prod.mk.inj (Option.some.inj hstep)
    exact h.nextRead skipFrames

theorem size_step {buf buf' : RingBuffer ITEM} {a : Act ITEM} {e : Event ITEM}
    (hstep : buf.step a = some (buf', e)) : buf'.size = buf.size := by
  cases a with
  | fill item => cases hstep; rfl
  | nextWrite allowLapping => cases hstep; rfl
  | nextRead skipFrames => cases skipFrames <;> cases hstep <;> rfl

theorem run_apart {buf : RingBuffer ITEM} {acts : List (Act ITEM)} {events : List (Event ITEM)}
    {size : Int} (h2 : 2 ≤ size) {items : Int → ITEM}
    (hrun : Machine.run step (new items size) acts = some (buf, events)) :
    buf.Apart ∧ buf.size = size := by
  refine Machine.run_invariant (I := fun buf _ => buf.Apart ∧ buf.size = size)
    ⟨apart_new h2 items, rfl⟩ ?_ hrun
  rintro t outs a t' out ⟨happart, hsize⟩ hstep
  exact ⟨happart.step hstep, (size_step hstep).trans hsize⟩

/-- Reader and writer are always in the ring and never in the same bin. -/
theorem bins_apart {size : Int} (h2 : 2 ≤ size) (items : Int → ITEM) (acts : List (Act ITEM)) :
    ∃ buf events, Machine.run step (new items size) acts = some (buf, events) ∧
      (0 ≤ buf.currentRead ∧ buf.currentRead < size) ∧
      (0 ≤ buf.currentWrite ∧ buf.currentWrite < size) ∧ buf.currentRead ≠ buf.currentWrite := by
  obtain ⟨⟨buf, events⟩, hrun⟩ := Machine.run_total step_total (new items size) acts
  obtain ⟨happart, rfl⟩ := run_apart h2 hrun
  exact ⟨buf, events, hrun, happart.read_mem, happart.write_mem, happart.ne⟩

theorem bins_apart_smallest :
    ∃ buf events, Machine.run step (new (fun _ => ()) 2) [.nextWrite false, .nextRead true] =
        some (buf, events) ∧ (0 ≤ buf.currentRead ∧ buf.currentRead < 2) ∧
      (0 ≤ buf.currentWrite ∧ buf.currentWrite < 2) ∧ buf.currentRead ≠ buf.currentWrite :=
  bins_apart (Int.le_refl 2) _ _

-- ---------------------------------------------------------------------------
-- The lossless mode
-- ---------------------------------------------------------------------------

/-- Lapping is forbidden and no bins are skipped. -/
def Act.Lossless : Act ITEM → Prop
  | .fill _ => True
  | .nextWrite allowLapping => allowLapping = false
  | .nextRead skipFrames => skipFrames = false

def Event.left : Event ITEM → Option (Int × ITEM)
  | .wrote bin item bin' => if bin' = bin then none else some (bin, item)
  | _ => none

def Event.entered : Event ITEM → Option (Int × ITEM)
  | .read bin bin' item' => if bin' = bin then none else some (bin', item')
  | _ => none

@[simp] theorem left_filled : (.filled : Event ITEM).left = none := rfl
@[simp] theorem entered_filled : (.filled : Event ITEM).entered = none := rfl
@[simp] theorem left_read (bin bin' : Int) (item' : ITEM) : (Event.read bin bin' item').left = none :=
  rfl
@[simp] theorem entered_wrote (bin bin' : Int) (item : ITEM) :
    (Event.wrote bin item bin').entered = none := rfl
@[simp] theorem left_wrote (bin bin' : Int) (item : ITEM) :
    (Event.wrote bin item bin').left = if bin' = bin then none else some (bin, item) := rfl
@[simp] theorem entered_read (bin bin' : Int) (item' : ITEM) :
    (Event.read bin bin' item').entered = if bin' = bin then none else some (bin', item') := rfl

def nextBin (buf : RingBuffer ITEM) : Int := (buf.currentWrite + 1) % buf.size

/-- A writer whose next bin is the reader's stays where it is. -/
def Waits (buf : RingBuffer ITEM) (a : Act ITEM) : Prop :=
  a = .nextWrite false → buf.nextBin = buf.currentRead →
    (buf.nextWrite false).currentWrite = buf.currentWrite

/-- The writer waits for the reader, and at every moment what the reader has
gone through is, bin by bin and with the same contents, a prefix of what the
writer has left. -/
def KeepsAll (buf : RingBuffer ITEM) (acts : List (Act ITEM)) : Prop :=
  Machine.Always step Waits buf acts ∧
    ∀ earlier later buf' events, acts = earlier ++ later →
      Machine.run step buf earlier = some (buf', events) →
      events.filterMap Event.entered <+: events.filterMap Event.left

/-- The writer is not asked to move while the next bin is the reader's, or it
has no other bin to go to. -/
def Unhindered (buf : RingBuffer ITEM) (a : Act ITEM) : Prop :=
  a = .nextWrite false → buf.size = 2 ∨ buf.nextBin ≠ buf.currentRead

def ahead (buf : RingBuffer ITEM) (i : Nat) : Int := (buf.currentRead + (1 + i : Nat)) % buf.size

def between (buf : RingBuffer ITEM) (k : Nat) : List (Int × ITEM) :=
  (List.range k).map fun i => (buf.ahead i, buf.items (buf.ahead i))

/-- The bins between reader and writer are the ones left but not entered. -/
structure Queue (buf : RingBuffer ITEM) (events : List (Event ITEM)) (k : Nat) : Prop where
  apart : buf.Apart
  write_eq : buf.currentWrite = buf.ahead k
  room : k + 2 ≤ buf.size
  left_eq : events.filterMap Event.left = events.filterMap Event.entered ++ buf.between k

theorem pointer_of_mem {buf : RingBuffer ITEM} {idx : Int} (h0 : 0 ≤ idx) (h : idx < buf.size) :
    buf.pointer idx = idx := by
  rw [pointer, if_neg (by omega)]
  exact if_neg (by omega)

theorem queue_new {size : Int} (h2 : 2 ≤ size) (items : Int → ITEM) :
    (new items size).Queue [] 0 where
  apart := apart_new h2 items
  write_eq := (Int.emod_eq_of_lt (Int.zero_le_ofNat 1) (show 1 < size by omega)).symm
  room := h2
  left_eq := rfl

theorem Queue.fill {buf : RingBuffer ITEM} {events : List (Event ITEM)} {k : Nat}
    (h : buf.Queue events k) (item : ITEM) :
    (buf.fill item).Queue (events ++ [.filled]) k where
  apart := h.apart.fill item
  write_eq := h.write_eq
  room := h.room
  left_eq := by
    have hkeep : (buf.fill item).between k = buf.between k := by
      refine List.map_congr_left fun i hi => Prod.ext rfl (Function.update_of_ne ?_ _ _)
      rw [pointer_of_mem h.apart.write_mem.1 h.apart.write_mem.2, h.write_eq]
      have hroom := h.room
      have hik := List.mem_range.mp hi
      exact add_emod_ne (by omega) (by rw [size_fill]; omega)
    simp [hkeep, h.left_eq, List.filterMap_cons]

theorem Queue.nextBin_eq {buf : RingBuffer ITEM} {events : List (Event ITEM)} {k : Nat}
    (h : buf.Queue events k) : buf.nextBin = buf.ahead (k + 1) := by
  rw [nextBin, h.write_eq, ahead, ahead, Int.emod_add_emod]
  congr 1
  omega

theorem Queue.nextWrite {buf : RingBuffer ITEM} {events : List (Event ITEM)} {k : Nat}
    (h : buf.Queue events k) (hfree : buf.Unhindered (.nextWrite false)) :
    ∃ k', (buf.nextWrite false).Queue
      (events ++ [.wrote buf.currentWrite (buf.getItem buf.currentWrite)
        (buf.nextWrite false).currentWrite]) k' := by
  have hsize := h.apart.two_le_size
  have hwrite := h.apart.write_mem
  have hroom := h.room
  have hmove : (buf.nextWrite false).currentWrite =
      if buf.nextBin = buf.currentRead then (buf.currentWrite + 2) % buf.size else buf.nextBin := by
    rw [RingBuffer.nextWrite, next_of_mem hsize hwrite.1 hwrite.2]
    rfl
  by_cases hnext : buf.nextBin = buf.currentRead
  · -- Only two bins: the jump over the reader's leads back.
    have htwo : buf.size = 2 := (hfree rfl).resolve_right (fun h => h hnext)
    have hstay : (buf.nextWrite false).currentWrite = buf.currentWrite := by
      rw [hmove, if_pos hnext]
      rw [htwo] at hwrite ⊢
      omega
    refine ⟨k, h.apart.nextWrite false, hstay.trans h.write_eq, hroom, ?_⟩
    simp [h.left_eq, hstay, between, ahead]
  · have hleft : (buf.nextWrite false).currentWrite = buf.ahead (k + 1) := by
      rw [hmove, if_neg hnext, h.nextBin_eq]
    have hroom' : k + 3 ≤ buf.size := by
      by_contra hfull
      have hturn : buf.nextBin = buf.currentRead := by
        rw [h.nextBin_eq, ahead, show ((1 + (k + 1) : Nat) : Int) = buf.size by omega,
          Int.add_emod_right, Int.emod_eq_of_lt h.apart.read_mem.1 h.apart.read_mem.2]
      exact hnext hturn
    have hne : buf.ahead (k + 1) ≠ buf.currentWrite := by
      rw [h.write_eq]
      exact (add_emod_ne (by omega) (by omega)).symm
    refine ⟨k + 1, h.apart.nextWrite false, hleft, by rw [size_nextWrite]; omega, ?_⟩
    have hgrow : (buf.nextWrite false).between (k + 1) =
        buf.between k ++ [(buf.currentWrite, buf.getItem buf.currentWrite)] := by
      rw [getItem, pointer_of_mem hwrite.1 hwrite.2, h.write_eq]
      simp [between, ahead, List.range_succ]
    simp [h.left_eq, hgrow, hleft, hne]

theorem Queue.nextRead {buf : RingBuffer ITEM} {events : List (Event ITEM)} {k : Nat}
    (h : buf.Queue events k) :
    ∃ k', (buf.nextRead false).Queue
      (events ++ [.read buf.currentRead (buf.nextRead false).currentRead
        ((buf.nextRead false).getItem (buf.nextRead false).currentRead)]) k' := by
  have hread := h.apart.read_mem
  have hroom := h.room
  have hmove : (buf.nextRead false).currentRead =
      if buf.ahead 0 = buf.currentWrite then buf.currentRead else buf.ahead 0 :=
    next_of_mem h.apart.two_le_size hread.1 hread.2 _ _
  cases k with
  | zero =>
    have hstay : (buf.nextRead false).currentRead = buf.currentRead := by
      rw [hmove, if_pos h.write_eq.symm]
    refine ⟨0, h.apart.nextRead false, ?_, by rwa [size_nextRead], ?_⟩
    · rw [ahead, hstay, currentWrite_nextRead, size_nextRead]
      exact h.write_eq
    · simp [h.left_eq, hstay, between]
  | succ k =>
    have hgo : (buf.nextRead false).currentRead = buf.ahead 0 := by
      rw [hmove, if_neg]
      rw [h.write_eq]
      exact add_emod_ne (by omega) (by omega)
    have hne : buf.ahead 0 ≠ buf.currentRead := by
      have hstart : buf.currentRead = (buf.currentRead + (0 : Nat)) % buf.size := by
        rw [Int.natCast_zero, Int.add_zero, Int.emod_eq_of_lt hread.1 hread.2]
      rw [hstart]
      exact (add_emod_ne (by omega) (by omega)).symm
    have hahead (i : Nat) : (buf.nextRead false).ahead i = buf.ahead (i + 1) := by
      rw [ahead, hgo, ahead, ahead, size_nextRead, Int.emod_add_emod]
      congr 1
      omega
    have hpointer : buf.pointer (buf.ahead 0) = buf.ahead 0 := by
      have hmem := emod_mem h.apart.two_le_size (buf.currentRead + (1 + 0 : Nat))
      exact pointer_of_mem hmem.1 hmem.2
    have hshrink : buf.between (k + 1) =
        (buf.ahead 0, buf.items (buf.ahead 0)) :: (buf.nextRead false).between k := by
      simp [between, List.range_succ_eq_map, hahead]
    refine ⟨k, h.apart.nextRead false, ?_, by rw [size_nextRead]; omega, ?_⟩
    · rw [hahead, currentWrite_nextRead]
      exact h.write_eq
    · have hitem : (buf.nextRead false).getItem (buf.ahead 0) = buf.items (buf.ahead 0) := by
        rw [getItem, items_nextRead, pointer, size_nextRead, ← pointer, hpointer]
      simp [h.left_eq, hgo, hshrink, hne, hitem]

theorem Queue.step {buf buf' : RingBuffer ITEM} {events : List (Event ITEM)} {k : Nat}
    (h : buf.Queue events k) {a : Act ITEM} (ha : a.Lossless) (hfree : buf.Unhindered a)
    {e : Event ITEM} (hstep : buf.step a = some (buf', e)) : ∃ k', buf'.Queue (events ++ [e]) k' := by
  cases a with
  | fill item =>
    cases hstep
    exact ⟨k, h.fill item⟩
  | nextWrite allowLapping =>
    cases ha
    cases hstep
    exact h.nextWrite hfree
  | nextRead skipFrames =>
    cases ha
    cases hstep
    exact h.nextRead

/-- Where a writer waits it is unhindered: a jump over the reader's bin ends in
the writer's own bin only in a ring of two. -/
theorem unhindered_of_waits {buf : RingBuffer ITEM} (h : buf.Apart) {a : Act ITEM}
    (hwaits : buf.Waits a) : buf.Unhindered a := by
  intro ha
  by_contra! hlap
  obtain ⟨hsize, hnext⟩ := hlap
  have hstay := hwaits ha hnext
  have htwo := h.two_le_size
  have hjump : (buf.nextWrite false).currentWrite = (buf.currentWrite + (2 : Nat)) % buf.size := by
    rw [RingBuffer.nextWrite, next_of_mem htwo h.write_mem.1 h.write_mem.2]
    exact if_pos hnext
  have hstart : buf.currentWrite = (buf.currentWrite + (0 : Nat)) % buf.size := by
    rw [Int.natCast_zero, Int.add_zero, Int.emod_eq_of_lt h.write_mem.1 h.write_mem.2]
  rw [hjump] at hstay
  exact add_emod_ne (i := 0) (j := 2) (by decide) (by omega) (hstart.symm.trans hstay.symm)

theorem waits_of_unhindered {buf : RingBuffer ITEM} (h : buf.Apart) {a : Act ITEM}
    (hfree : buf.Unhindered a) : buf.Waits a := by
  intro ha hnext
  have htwo := (hfree ha).resolve_right fun hne => hne hnext
  have hmem := h.write_mem
  have hjump : (buf.nextWrite false).currentWrite = (buf.currentWrite + 2) % buf.size := by
    rw [RingBuffer.nextWrite, next_of_mem h.two_le_size h.write_mem.1 h.write_mem.2]
    exact if_pos hnext
  rw [hjump, htwo]
  rw [htwo] at hmem
  omega

theorem keepsAll_of_unhindered {size : Int} (h2 : 2 ≤ size) {items : Int → ITEM}
    {acts : List (Act ITEM)} (hacts : ∀ a ∈ acts, a.Lossless)
    (hfree : Machine.Always step Unhindered (new items size) acts) :
    (new items size).KeepsAll acts := by
  constructor
  · intro earlier a later t outs hsplit hrun
    exact waits_of_unhindered (run_apart h2 hrun).1 (hfree earlier a later t outs hsplit hrun)
  · rintro earlier later buf events rfl hrun
    have hqueue : ∃ k, buf.Queue events k := by
      refine Machine.run_invariant_of (I := fun buf events => ∃ k, buf.Queue events k)
        (C := fun buf a => a.Lossless ∧ buf.Unhindered a) ⟨0, queue_new h2 items⟩ ?_ ?_ hrun
      · rintro t outs a t' out ⟨k, hqueue⟩ ⟨ha, hfree⟩ hstep
        exact hqueue.step ha hfree hstep
      · rintro earlier' a later' t outs rfl hrun'
        exact ⟨hacts a (by simp), hfree earlier' a (later' ++ later) t outs (by simp) hrun'⟩
    obtain ⟨k, hqueue⟩ := hqueue
    exact ⟨buf.between k, hqueue.left_eq.symm⟩

theorem unhindered_of_keepsAll {size : Int} (h2 : 2 ≤ size) {items : Int → ITEM}
    {acts : List (Act ITEM)} (h : (new items size).KeepsAll acts) :
    Machine.Always step Unhindered (new items size) acts :=
  fun earlier a later t outs hsplit hrun =>
    unhindered_of_waits (run_apart h2 hrun).1 (h.1 earlier a later t outs hsplit hrun)

/-- In the lossless mode nothing is lost exactly as long as the writer is
unhindered. -/
theorem keepsAll_iff {size : Int} (h2 : 2 ≤ size) (items : Int → ITEM) {acts : List (Act ITEM)}
    (hacts : ∀ a ∈ acts, a.Lossless) :
    (new items size).KeepsAll acts ↔ Machine.Always step Unhindered (new items size) acts :=
  ⟨unhindered_of_keepsAll h2, keepsAll_of_unhindered h2 hacts⟩

def writes (items : List ITEM) : List (Act ITEM) :=
  items.flatMap fun item => [.fill item, .nextWrite false]

theorem keepsAll_iff_write_read :
    (new (fun _ => 0) 3).KeepsAll
      [.fill 7, .nextWrite false, .nextRead false, .fill 8, .nextWrite false] := by
  refine (keepsAll_iff (by decide) _ (by simp [Act.Lossless])).mpr ?_
  have hfree {buf : RingBuffer Nat} {a : Act Nat} (h : buf.nextBin ≠ buf.currentRead) :
      buf.Unhindered a := fun _ => .inr h
  refine .cons (hfree (by decide)) fun _ _ h => ?_
  cases h
  refine .cons (hfree (by decide)) fun _ _ h => ?_
  cases h
  refine .cons (by simp [Unhindered]) fun _ _ h => ?_
  cases h
  refine .cons (hfree (by decide)) fun _ _ h => ?_
  cases h
  refine .cons (hfree (by decide)) fun _ _ h => ?_
  cases h
  exact .nil

/-- Two writes on a ring of three: the second finds the reader's bin ahead,
jumps over it and is back at the bin the reader has yet to enter. -/
theorem not_keepsAll_two_writes : ¬(new (fun _ => 0) 3).KeepsAll (writes [7, 8]) := by
  intro h
  have hwaits := h.1 (writes [7] ++ [.fill 8]) (.nextWrite false) [] _ _ rfl rfl rfl rfl
  exact absurd hwaits (by decide)

end LARCmaCS.RingBuffer
