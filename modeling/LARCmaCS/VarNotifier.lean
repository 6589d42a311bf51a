import LARCmaCS.Lib.BreadthFirst
import Mathlib.Data.List.ReduceOption
import Mathlib.Logic.Function.Basic

/-!
# Recursive subscriptions

`VarNotifier` of `VarNotifier.cpp`. `addRecursive` adds every node it takes from
its queue; `removeRecursive` takes the same nodes, but removes the root each
time, so it undoes `addRecursive` only on a root without children
(`undoes_iff`).
-/

namespace LARCmaCS

inductive VarNotificationType where
  | VarNotificationChanged
  | VarNotificationEdited
  deriving DecidableEq

inductive VarSignal where
  | hasChanged
  | wasEdited
  deriving DecidableEq

def VarNotificationType.signal : VarNotificationType → VarSignal
  | .VarNotificationChanged => .hasChanged
  | .VarNotificationEdited => .wasEdited

/-- A node with its address and its children, some of which may be null. -/
inductive VarType where
  | node (address : Nat) (children : List (Option VarType))

namespace VarType

def address : VarType → Nat
  | node address _ => address

def getChildren : VarType → List (Option VarType)
  | node _ children => children

theorem sum_sizeOf_lt (children : List (Option VarType)) :
    (children.reduceOption.map sizeOf).sum < sizeOf children := by
  induction children with
  | nil => decide
  | cons child children ih =>
    cases child with
    | none => simp; omega
    | some child => simp; omega

/-- The nodes below a node, null pointers left out. -/
def hierarchy : Hierarchy VarType where
  children d := d.getChildren.reduceOption
  bounded := by
    refine ⟨sizeOf, fun d => ?_⟩
    obtain ⟨address, children⟩ := d
    have hlt := sum_sizeOf_lt children
    simp only [getChildren, node.sizeOf_spec]
    omega

end VarType

/-- `connections` gives the signals of a sender that are connected to
`changeSlot`; only those of the senders are. -/
@[ext] structure VarNotifier where
  senders : Nat → Option VarNotificationType
  connections : Nat → List VarSignal
  connected : ∀ item, connections item = ((senders item).map VarNotificationType.signal).toList

namespace VarNotifier

theorem connected_update {senders : Nat → Option VarNotificationType}
    {connections : Nat → List VarSignal}
    (h : ∀ item, connections item = ((senders item).map VarNotificationType.signal).toList)
    (item : Nat) (entry : Option VarNotificationType) (other : Nat) :
    Function.update connections item (entry.map VarNotificationType.signal).toList other =
      ((Function.update senders item entry other).map VarNotificationType.signal).toList := by
  by_cases heq : other = item
  · rw [heq, Function.update_self, Function.update_self]
  · rw [Function.update_of_ne heq, Function.update_of_ne heq, h]

def internalNonMutexedRemoveItem (n : VarNotifier) (item : Option Nat) : VarNotifier :=
  match item with
  | none => n
  | some item =>
    if n.senders item ≠ none then
      { senders := Function.update n.senders item none
        connections := Function.update n.connections item []
        connected := connected_update n.connected item none }
    else n

def internalNonMutexedAddItem (n : VarNotifier) (item : Option Nat)
    (notification_type : VarNotificationType) : VarNotifier :=
  match item with
  | none => n
  | some item =>
    match h : n.senders item with
    | some value =>
      if value = notification_type then n
      else
        -- disconnected, and connected again
        { senders := Function.update n.senders item notification_type
          connections := Function.update n.connections item ([] ++ [notification_type.signal])
          connected := connected_update n.connected item notification_type }
    | none =>
      { senders := Function.update n.senders item notification_type
        connections := Function.update n.connections item
          (n.connections item ++ [notification_type.signal])
        connected := by
          rw [n.connected item, h]
          exact connected_update n.connected item notification_type }

/-- `if ((d!=item) || include_root)` -/
def Included (item : Option VarType) (include_root : Bool) (d : VarType) : Prop :=
  some d.address ≠ item.map VarType.address ∨ include_root = true

instance (item : Option VarType) (include_root : Bool) (d : VarType) :
    Decidable (Included item include_root d) := inferInstanceAs (Decidable (_ ∨ _))

def addRecursive (n : VarNotifier) (item : Option VarType)
    (notification_type : VarNotificationType) (include_root : Bool) : VarNotifier :=
  VarType.hierarchy.traverse (fun n d =>
    if Included item include_root d then
      n.internalNonMutexedAddItem (some d.address) notification_type
    else n) item.toList n

def removeRecursive (n : VarNotifier) (item : Option VarType) (include_root : Bool) :
    VarNotifier :=
  VarType.hierarchy.traverse (fun n d =>
    if Included item include_root d then
      n.internalNonMutexedRemoveItem (item.map VarType.address)
    else n) item.toList n

-- ---------------------------------------------------------------------------
-- One item
-- ---------------------------------------------------------------------------

variable {n n' : VarNotifier} {t : VarNotificationType} {d root : VarType} {include_root : Bool}

theorem ext_senders (h : n.senders = n'.senders) : n = n' := by
  refine VarNotifier.ext h (funext fun item => ?_)
  rw [n.connected, n'.connected, h]

@[simp] theorem senders_removeItem (item : Nat) :
    (n.internalNonMutexedRemoveItem (some item)).senders = Function.update n.senders item none := by
  rw [internalNonMutexedRemoveItem]
  split
  · rfl
  · rename_i hitem
    rw [← not_not.mp hitem, Function.update_eq_self]

@[simp] theorem senders_addItem (item : Nat) :
    (n.internalNonMutexedAddItem (some item) t).senders =
      Function.update n.senders item (some t) := by
  rw [internalNonMutexedAddItem]
  split
  · rename_i value hvalue
    split
    · rename_i heq
      rw [← heq, ← hvalue, Function.update_eq_self]
    · rfl
  · rfl

-- ---------------------------------------------------------------------------
-- The traversals
-- ---------------------------------------------------------------------------

theorem senders_foldl_removeItem {item : Nat} {P : VarType → Prop} [DecidablePred P]
    (ds : List VarType) {other : Nat} (hother : other ≠ item) :
    (ds.foldl (fun n d => if P d then n.internalNonMutexedRemoveItem (some item) else n)
      n).senders other = n.senders other := by
  induction ds generalizing n with
  | nil => rfl
  | cons d ds ih =>
    rw [List.foldl_cons, ih]
    split
    · rw [senders_removeItem, Function.update_of_ne hother]
    · rfl

theorem senders_foldl_addItem {P : VarType → Prop} [DecidablePred P] {item : Nat}
    (ds : List VarType) (h : n.senders item = some t ∨ ∃ d ∈ ds, P d ∧ d.address = item) :
    (ds.foldl (fun n d => if P d then n.internalNonMutexedAddItem (some d.address) t else n)
      n).senders item = some t := by
  induction ds generalizing n with
  | nil => simpa using h
  | cons d ds ih =>
    rw [List.foldl_cons]
    refine ih ?_
    rcases h with h | ⟨c, hc, hP, rfl⟩
    · left
      split
      · rw [senders_addItem]
        by_cases heq : item = d.address
        · rw [heq, Function.update_self]
        · rw [Function.update_of_ne heq, h]
      · exact h
    · rcases List.mem_cons.mp hc with rfl | hc
      · left
        rw [if_pos hP, senders_addItem, Function.update_self]
      · exact .inr ⟨c, hc, hP, rfl⟩

theorem senders_removeRecursive_of_ne {item : Nat} (h : item ≠ root.address) :
    (n.removeRecursive (some root) include_root).senders item = n.senders item := by
  rw [removeRecursive, Hierarchy.traverse_eq_foldl]
  exact senders_foldl_removeItem _ h

theorem senders_addRecursive {d : VarType} (hd : d ∈ VarType.hierarchy.nodes root)
    (hincluded : Included (some root) include_root d) :
    (n.addRecursive (some root) t include_root).senders d.address = some t := by
  rw [addRecursive, Hierarchy.traverse_eq_foldl]
  refine senders_foldl_addItem _ (.inr ⟨d, ?_, hincluded, rfl⟩)
  rw [Option.toList_some, (VarType.hierarchy.perm_visited [root]).mem_iff]
  simpa using hd

/-- Removal restores what there was before the addition. -/
def Undoes (n : VarNotifier) (root : VarType) (t : VarNotificationType) (include_root : Bool) :
    Prop :=
  (n.addRecursive (some root) t include_root).removeRecursive (some root) include_root = n

theorem undoes_of_leaf (hleaf : root.getChildren.reduceOption = [])
    (hfree : n.senders root.address = none) : n.Undoes root t include_root := by
  have hvisited : VarType.hierarchy.visited [root] = [root] := by
    obtain ⟨rest, hvisited, hperm⟩ := VarType.hierarchy.visited_singleton root
    have hchildren : VarType.hierarchy.children root = [] := hleaf
    rw [hchildren, List.flatMap_nil, List.perm_nil] at hperm
    rw [hvisited, hperm]
  rw [Undoes, addRecursive, removeRecursive, Hierarchy.traverse_eq_foldl,
    Hierarchy.traverse_eq_foldl, Option.toList_some, hvisited, List.foldl_cons, List.foldl_nil,
    List.foldl_cons, List.foldl_nil]
  split
  · refine ext_senders ?_
    rw [Option.map_some, senders_removeItem, senders_addItem, Function.update_idem, ← hfree,
      Function.update_eq_self]
  · rfl

theorem Undoes.leaf (hdistinct : ((VarType.hierarchy.nodes root).map VarType.address).Nodup)
    (hfree : ∀ d ∈ VarType.hierarchy.nodes root, n.senders d.address = none)
    (hundone : n.Undoes root t include_root) : root.getChildren.reduceOption = [] := by
  by_contra hchildren
  obtain ⟨c, hc⟩ := List.exists_mem_of_ne_nil _ hchildren
  have hbelow : c ∈ (VarType.hierarchy.children root).flatMap VarType.hierarchy.nodes :=
    List.mem_flatMap.mpr ⟨c, hc, VarType.hierarchy.mem_nodes_self c⟩
  rw [VarType.hierarchy.nodes_eq] at hdistinct hfree
  rw [List.map_cons, List.nodup_cons] at hdistinct
  have hne : c.address ≠ root.address := fun heq =>
    hdistinct.1 (heq ▸ List.mem_map_of_mem hbelow)
  have hnode : c ∈ VarType.hierarchy.nodes root := by
    rw [VarType.hierarchy.nodes_eq]
    exact List.mem_cons_of_mem _ hbelow
  have hincluded : Included (some root) include_root c :=
    .inl fun heq => hne (Option.some.inj heq)
  have hleft := senders_addRecursive (n := n) (t := t) hnode hincluded
  rw [← senders_removeRecursive_of_ne hne, hundone,
    hfree c (List.mem_cons_of_mem _ hbelow)] at hleft
  cases hleft

/-- The addition is undone exactly if the root has no children. -/
theorem undoes_iff (n : VarNotifier) (root : VarType) (t : VarNotificationType)
    (include_root : Bool) (hdistinct : ((VarType.hierarchy.nodes root).map VarType.address).Nodup)
    (hfree : ∀ d ∈ VarType.hierarchy.nodes root, n.senders d.address = none) :
    n.Undoes root t include_root ↔ root.getChildren.reduceOption = [] :=
  ⟨Undoes.leaf hdistinct hfree, fun hleaf =>
    undoes_of_leaf hleaf (hfree root (VarType.hierarchy.mem_nodes_self root))⟩

def empty : VarNotifier := ⟨fun _ => none, fun _ => [], fun _ => rfl⟩

theorem undoes_iff_null_child : empty.Undoes (.node 1 [none]) .VarNotificationChanged true :=
  (undoes_iff empty (.node 1 [none]) .VarNotificationChanged true
    (by rw [Hierarchy.nodes_eq]; decide) (fun _ _ => rfl)).mpr rfl

theorem not_undoes_one_child :
    ¬empty.Undoes (.node 1 [some (.node 2 [])]) .VarNotificationChanged true := by
  intro h
  have hdistinct : ((VarType.hierarchy.nodes (.node 1 [some (.node 2 [])])).map
      VarType.address).Nodup := by
    simp [Hierarchy.nodes_eq, VarType.hierarchy, VarType.getChildren, VarType.address]
  exact absurd (h.leaf hdistinct fun _ _ => rfl) (by simp [VarType.getChildren])

end VarNotifier

end LARCmaCS
