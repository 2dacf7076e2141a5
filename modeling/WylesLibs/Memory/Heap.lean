import WylesLibs.Library.Links
import WylesLibs.Library.Outcome

/-! The lists of blocks of memory: nodes linked by `child`, in the order of their sizes. -/
namespace WylesLibs.Memory
open Library

/-- A pointer to a node is the position of the node in `nodes`. -/
structure MemoryHeapNode where
  index : UInt16
  blockSize : UInt16
  child : Option Nat

abbrev Nodes := Nat → MemoryHeapNode

def childOf (nodes : Nodes) (i : Nat) : Option Nat := (nodes i).child

def setChild (nodes : Nodes) (i : Nat) (child : Option Nat) : Nodes :=
  Function.update nodes i { nodes i with child := child }

/-- The argument points to a `size_t` and is read as a `uint32_t`: its low half. -/
def sizeHeapPopCondition (size : UInt64) (node : MemoryHeapNode) : Bool :=
  decide (size.toUInt32 ≤ node.blockSize.toUInt32)

def ptrHeapPopCondition (index : UInt32) (node : MemoryHeapNode) : Bool :=
  index == node.index.toUInt32

def mergeHeapPopCondition (index : UInt32) (node : MemoryHeapNode) : Bool :=
  node.index.toUInt32 + node.blockSize.toUInt32 == index

/-- The loop of `memoryHeapPush` and `memoryHeapPop`: the node it ends at, the one before, and
whether the node matches. `steps` bounds how many nodes it may visit. -/
def traverse (nodes : Nodes) (match_ : MemoryHeapNode → Bool) :
    Nat → Option Nat → Nat → Outcome (Option Nat × Nat × Bool)
  | 0, _, _ => .timeout
  | steps + 1, prevNode, node =>
    if match_ (nodes node) then .ok (prevNode, node, true)
    else
      match (nodes node).child with
      | none => .ok (prevNode, node, false)
      | some child => traverse nodes match_ steps (some node) child

/-- What stands behind `prevNode`, or at the root if there is no such node, becomes `target`. -/
def setBehind (nodes : Nodes) (root prevNode target : Option Nat) : Nodes × Option Nat :=
  match prevNode with
  | none => (nodes, target)
  | some prev => (setChild nodes prev target, root)

def memoryHeapPush (steps : Nat) (nodes : Nodes) (root : Option Nat) (newNode : Nat) :
    Outcome (Nodes × Option Nat) :=
  match root with
  | none => .ok (nodes, some newNode)
  | some node =>
    (traverse nodes (fun n => decide ((nodes newNode).blockSize < n.blockSize)) steps none
      node).bind fun (prevNode, node, found) =>
    if found then
      let (nodes, root) := setBehind nodes root prevNode (some newNode)
      .ok (setChild nodes newNode (some node), root)
    else .ok (setChild (setChild nodes node (some newNode)) newNode none, root)

def memoryHeapPop (steps : Nat) (nodes : Nodes) (root : Option Nat)
    (condition : MemoryHeapNode → Bool) : Outcome (Option Nat × Nodes × Option Nat) :=
  match root with
  | none => .ok (none, nodes, none)
  | some node =>
    (traverse nodes condition steps none node).bind fun (prevNode, node, found) =>
    if found then
      let (nodes, root) := setBehind nodes root prevNode (nodes node).child
      .ok (some node, setChild nodes node none, root)
    else .ok (none, nodes, root)

/-! The links that the operations leave. -/

theorem childOf_setChild (nodes : Nodes) (i : Nat) (child : Option Nat) :
    childOf (setChild nodes i child) = Function.update (childOf nodes) i child := by
  funext j
  by_cases hj : j = i
  · simp [childOf, setChild, hj]
  · simp [childOf, setChild, hj]

/-- Only links of the nodes `l` differ. -/
structure Relinked (l : List Nat) (nodes nodes' : Nodes) : Prop where
  index : ∀ i, (nodes' i).index = (nodes i).index
  blockSize : ∀ i, (nodes' i).blockSize = (nodes i).blockSize
  other : ∀ i, i ∉ l → nodes' i = nodes i

section
variable {nodes nodes' nodes'' : Nodes} {l l' pre post : List Nat} {root prev : Option Nat}
variable {steps node newNode i : Nat} {condition : MemoryHeapNode → Bool}

theorem Relinked.refl (l : List Nat) (nodes : Nodes) : Relinked l nodes nodes :=
  ⟨fun _ => rfl, fun _ => rfl, fun _ _ => rfl⟩

theorem Relinked.setChild (h : Relinked l nodes nodes') (hi : i ∈ l) (child : Option Nat) :
    Relinked l nodes (setChild nodes' i child) := by
  have hdata : ∀ j, (Memory.setChild nodes' i child j).index = (nodes' j).index ∧
      (Memory.setChild nodes' i child j).blockSize = (nodes' j).blockSize := fun j => by
    by_cases hj : j = i <;> simp [Memory.setChild, hj]
  refine ⟨fun j => (hdata j).1.trans (h.index j), fun j => (hdata j).2.trans (h.blockSize j),
    fun j hj => ?_⟩
  have hne : j ≠ i := fun heq => hj (heq ▸ hi)
  rw [Memory.setChild, Function.update_of_ne hne, h.other j hj]

/-- The loop passes the nodes that do not match. -/
theorem traverse_pass (prev : Option Nat) (h : Leads (childOf nodes) (some node) (pre ++ i :: post) none)
    (hpre : ∀ j ∈ pre, condition (nodes j) = false) :
    traverse nodes condition (pre.length + steps) prev node =
      traverse nodes condition steps (pre.getLast?.or prev) i := by
  induction pre generalizing node prev with
  | nil =>
    obtain rfl : node = i := by simpa using h.1
    simp
  | cons j pre ih =>
    obtain rfl : node = j := by simpa using h.1
    have hrest : Leads (childOf nodes) (childOf nodes node) (pre ++ i :: post) none := h.2
    obtain ⟨child, hchild⟩ : ∃ child, childOf nodes node = some child := by
      cases pre with
      | nil => exact ⟨i, hrest.1⟩
      | cons k pre => exact ⟨k, hrest.1⟩
    rw [hchild] at hrest
    have hnode : condition (nodes node) = false := hpre node List.mem_cons_self
    have hnext := ih (some node) hrest fun k hk => hpre k (List.mem_cons_of_mem _ hk)
    have hchild' : (nodes node).child = some child := hchild
    rw [List.length_cons, Nat.add_right_comm]
    simp only [traverse, hnode, Bool.false_eq_true, if_false, hchild', hnext, List.getLast?_cons]
    cases pre.getLast? <;> rfl

theorem traverse_found (condition : MemoryHeapNode → Bool)
    (h : Leads (childOf nodes) (some node) (pre ++ i :: post) none)
    (hpre : ∀ j ∈ pre, condition (nodes j) = false) (hi : condition (nodes i) = true)
    (hsteps : pre.length < steps) :
    traverse nodes condition steps none node = .ok (pre.getLast?, i, true) := by
  obtain ⟨k, rfl⟩ : ∃ k, steps = pre.length + (k + 1) := ⟨steps - pre.length - 1, by omega⟩
  rw [traverse_pass none h hpre, Option.or_none, traverse, if_pos hi]

theorem traverse_missed (condition : MemoryHeapNode → Bool)
    (h : Leads (childOf nodes) (some node) (pre ++ [i]) none)
    (hpre : ∀ j ∈ pre ++ [i], condition (nodes j) = false) (hsteps : pre.length < steps) :
    traverse nodes condition steps none node = .ok (pre.getLast?, i, false) := by
  obtain ⟨k, rfl⟩ : ∃ k, steps = pre.length + (k + 1) := ⟨steps - pre.length - 1, by omega⟩
  have hi : condition (nodes i) = false := hpre i (by simp)
  have hlast : (nodes i).child = none := by
    obtain ⟨mid, -, -, hend⟩ := leads_append.mp h
    exact hend
  rw [traverse_pass none h fun j hj => hpre j (List.mem_append_left _ hj), Option.or_none, traverse,
    if_neg (by simp [hi]), hlast]

/-- The order that `memoryHeapPush` keeps: behind the blocks of the same size. -/
abbrev Smaller (nodes : Nodes) (i j : Nat) : Prop := (nodes i).blockSize < (nodes j).blockSize

theorem orderedInsert_split (post : List Nat) {r : Nat → Nat → Prop} [DecidableRel r] (hpre : ∀ j ∈ pre, ¬ r newNode j)
    (hpost : ∀ j ∈ post.head?, r newNode j) :
    (pre ++ post).orderedInsert r newNode = pre ++ newNode :: post := by
  induction pre with
  | nil =>
    cases post with
    | nil => rfl
    | cons j post => exact List.orderedInsert_cons_of_le r post (hpost j rfl)
  | cons j pre ih =>
    have hj : ¬ r newNode j := hpre j List.mem_cons_self
    rw [List.cons_append, List.orderedInsert, if_neg hj,
      ih fun k hk => hpre k (List.mem_cons_of_mem j hk), List.cons_append]

theorem childOf_setBehind (target : Option Nat) :
    childOf (setBehind nodes root prev target).1 = (redirect (childOf nodes) root prev target).1 ∧
      (setBehind nodes root prev target).2 = (redirect (childOf nodes) root prev target).2 := by
  cases prev with
  | none => exact ⟨rfl, rfl⟩
  | some p => exact ⟨childOf_setChild nodes p target, rfl⟩

theorem Relinked.setBehind (h : Relinked l nodes nodes') (hpre : ∀ j ∈ pre, j ∈ l)
    (target : Option Nat) : Relinked l nodes (setBehind nodes' root pre.getLast? target).1 := by
  cases hlast : pre.getLast? with
  | none => exact h
  | some p => exact h.setChild (hpre p (List.mem_of_getLast? hlast)) target

theorem memoryHeapPush_spec (h : Links (childOf nodes) root l) (hnew : newNode ∉ l)
    (hchild : (nodes newNode).child = none) (hsteps : l.length ≤ steps) :
    ∃ nodes' root', memoryHeapPush steps nodes root newNode = .ok (nodes', root') ∧
      Links (childOf nodes') root' (l.orderedInsert (Smaller nodes) newNode) ∧
      Relinked (newNode :: l) nodes nodes' := by
  cases root with
  | none =>
    obtain rfl := h.eq_nil
    exact ⟨nodes, some newNode, rfl, ⟨rfl, hchild⟩, .refl _ _⟩
  | some node =>
    obtain ⟨pre, i, post, rfl, hpre, hi, -⟩ | ⟨hnone, -⟩ := first_match l
      fun j => decide ((nodes newNode).blockSize < (nodes j).blockSize)
    · have htraverse := traverse_found (fun n => decide ((nodes newNode).blockSize < n.blockSize))
        h hpre hi (Nat.lt_of_lt_of_le (by simp) hsteps)
      obtain ⟨mid, hleads, rfl, hpost⟩ := leads_append.mp h
      refine ⟨setChild (setBehind nodes (some node) pre.getLast? (some newNode)).1 newNode (some i),
        (setBehind nodes (some node) pre.getLast? (some newNode)).2, ?_, ?_, ?_⟩
      · simp [memoryHeapPush, htraverse]
      · rw [orderedInsert_split _ (fun j hj => of_decide_eq_false (hpre j hj))
          (by simpa using of_decide_eq_true hi), childOf_setChild, (childOf_setBehind _).1,
          (childOf_setBehind _).2]
        exact hleads.splice ⟨rfl, hpost⟩ h.nodup hnew
      · exact ((Relinked.refl _ _).setBehind (fun j hj => by simp [hj]) _).setChild (by simp) _
    · obtain rfl | ⟨pre, i, rfl⟩ := l.eq_nil_or_concat'
      · exact absurd h (by simp)
      have htraverse := traverse_missed (fun n => decide ((nodes newNode).blockSize < n.blockSize))
        h hnone (Nat.lt_of_lt_of_le (by simp) hsteps)
      refine ⟨setChild (setChild nodes i (some newNode)) newNode none, some node, ?_, ?_, ?_⟩
      · simp [memoryHeapPush, htraverse]
      · have hinsert := orderedInsert_split [] (r := Smaller nodes)
          (fun j hj => of_decide_eq_false (hnone j hj)) (by simp)
        have hlinks := h.splice (a := newNode) (leads_nil.mpr rfl) (by simpa using h.nodup)
          (by simpa using hnew)
        rw [List.append_nil] at hinsert
        rw [hinsert, childOf_setChild, childOf_setChild]
        simpa [redirect] using hlinks
      · exact ((Relinked.refl _ _).setChild (by simp) _).setChild (by simp) _

theorem memoryHeapPop_none (h : Links (childOf nodes) root l)
    (hnone : ∀ j ∈ l, condition (nodes j) = false) (hsteps : l.length ≤ steps) :
    memoryHeapPop steps nodes root condition = .ok (none, nodes, root) := by
  cases root with
  | none => rfl
  | some node =>
    obtain rfl | ⟨pre, i, rfl⟩ := l.eq_nil_or_concat'
    · exact absurd h (by simp)
    have htraverse := traverse_missed condition h hnone (by simp at hsteps; omega)
    simp [memoryHeapPop, htraverse]

theorem memoryHeapPop_some (h : Links (childOf nodes) root (pre ++ i :: post))
    (hpre : ∀ j ∈ pre, condition (nodes j) = false) (hi : condition (nodes i) = true)
    (hsteps : pre.length < steps) :
    ∃ nodes' root', memoryHeapPop steps nodes root condition = .ok (some i, nodes', root') ∧
      Links (childOf nodes') root' (pre ++ post) ∧ (nodes' i).child = none ∧
      Relinked (pre ++ i :: post) nodes nodes' := by
  cases root with
  | none => exact absurd h.eq_nil (by simp)
  | some node =>
    have htraverse := traverse_found condition h hpre hi hsteps
    refine ⟨setChild (setBehind nodes (some node) pre.getLast? (nodes i).child).1 i none,
      (setBehind nodes (some node) pre.getLast? (nodes i).child).2, ?_, ?_, ?_, ?_⟩
    · simp [memoryHeapPop, htraverse]
    · rw [childOf_setChild, (childOf_setBehind _).1, (childOf_setBehind _).2]
      exact h.unsplice none
    · simp [setChild]
    · exact ((Relinked.refl _ _).setBehind (fun j hj => by simp [hj]) _).setChild (by simp) _

end
end WylesLibs.Memory
