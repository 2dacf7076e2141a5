import WylesLibs.Memory.Heap

/-! What the operations keep of a list of blocks, for any list and any condition. -/
namespace WylesLibs.Memory
open Library

/-- From `root` the list goes over the nodes `l`, each of them once, and comes to an end; the sizes
do not fall. -/
structure WellFormed (nodes : Nodes) (root : Option Nat) (l : List Nat) : Prop where
  links : Links (childOf nodes) root l
  ascending : l.Pairwise fun i j => (nodes i).blockSize ≤ (nodes j).blockSize

section
variable {nodes nodes' : Nodes} {root : Option Nat} {l l' pre post : List Nat} {newNode : Nat}

theorem Relinked.ascending (h : Relinked l nodes nodes')
    (hl : l'.Pairwise fun i j => (nodes i).blockSize ≤ (nodes j).blockSize) :
    l'.Pairwise fun i j => (nodes' i).blockSize ≤ (nodes' j).blockSize := by
  apply hl.imp
  intro i j hij
  rwa [h.blockSize, h.blockSize]

/-- Where a node is put in, the others keep their order. -/
theorem orderedInsert_cut (nodes : Nodes) (newNode : Nat) (l : List Nat) :
    ∃ pre post, l = pre ++ post ∧ l.orderedInsert (Smaller nodes) newNode = pre ++ newNode :: post := by
  induction l with
  | nil => exact ⟨[], [], rfl, rfl⟩
  | cons i l ih =>
    by_cases hlt : Smaller nodes newNode i
    · exact ⟨[], i :: l, rfl, List.orderedInsert_cons_of_le _ l hlt⟩
    · obtain ⟨pre, post, hl, hinsert⟩ := ih
      refine ⟨i :: pre, post, by rw [hl, List.cons_append], ?_⟩
      rw [List.orderedInsert_of_not_le _ l hlt, hinsert, List.cons_append]

/-- The new node is in the list, and all else is as before. -/
structure Pushed (nodes nodes' : Nodes) (root' : Option Nat) (l : List Nat) (newNode : Nat) :
    Prop where
  list : ∃ pre post, l = pre ++ post ∧ WellFormed nodes' root' (pre ++ newNode :: post)
  relinked : Relinked (newNode :: l) nodes nodes'

theorem memoryHeapPush_pushed (h : WellFormed nodes root l) (hnew : newNode ∉ l)
    (hchild : (nodes newNode).child = none) {steps : Nat} (hsteps : l.length ≤ steps) :
    ∃ nodes' root', memoryHeapPush steps nodes root newNode = .ok (nodes', root') ∧
      Pushed nodes nodes' root' l newNode := by
  obtain ⟨nodes', root', hpush, hlinks, hrel⟩ :=
    memoryHeapPush_spec h.links hnew hchild hsteps
  have hsorted : (l.orderedInsert (Smaller nodes) newNode).Pairwise fun i j =>
      (nodes i).blockSize.toNat ≤ (nodes j).blockSize.toNat :=
    @pairwise_orderedInsert _ _ _ (fun i => (nodes i).blockSize.toNat) _ _
      (fun _ _ => UInt16.lt_iff_toNat_lt) _ (h.ascending.imp UInt16.le_iff_toNat_le.mp) newNode
  obtain ⟨pre, post, hl, hinsert⟩ := orderedInsert_cut nodes newNode l
  rw [hinsert] at hlinks
  refine ⟨nodes', root', hpush, ⟨pre, post, hl, hlinks, ?_⟩, hrel⟩
  rw [hinsert] at hsorted
  exact hrel.ascending (hsorted.imp UInt16.le_iff_toNat_le.mpr)

/-- The first node that matches is out of the list, and all else is as before. -/
structure Popped (nodes nodes' : Nodes) (root root' : Option Nat) (l : List Nat)
    (matches_ : Nat → Bool) : Prop where
  list : WellFormed nodes' root' (l.eraseP matches_)
  relinked : Relinked l nodes nodes'
  child : ∀ i, l.find? matches_ = some i → (nodes' i).child = none
  unchanged : l.find? matches_ = none → nodes' = nodes ∧ root' = root

theorem memoryHeapPop_popped (h : WellFormed nodes root l) (condition : MemoryHeapNode → Bool)
    {steps : Nat} (hsteps : l.length ≤ steps) :
    ∃ nodes' root', memoryHeapPop steps nodes root condition =
        .ok (l.find? fun i => condition (nodes i), nodes', root') ∧
      Popped nodes nodes' root root' l fun i => condition (nodes i) := by
  obtain ⟨pre, i, post, rfl, hpre, hi, hfind, herase⟩ | ⟨hnone, hfind⟩ :=
    first_match l fun i => condition (nodes i)
  · obtain ⟨nodes', root', hpop, hlinks, hchild, hrel⟩ :=
      memoryHeapPop_some h.links hpre hi (Nat.lt_of_lt_of_le (by simp) hsteps)
    have hsub : (pre ++ post).Sublist (pre ++ i :: post) :=
      List.Sublist.append_left (List.sublist_cons_self i post) pre
    have hsorted := hrel.ascending (h.ascending.sublist hsub)
    refine ⟨nodes', root', by rw [hpop, hfind], ?_, hrel, ?_, ?_⟩
    · rw [herase]
      exact ⟨hlinks, hsorted⟩
    · intro j hj
      obtain rfl : i = j := Option.some.inj (hfind.symm.trans hj)
      exact hchild
    · intro hnone
      rw [hfind] at hnone
      cases hnone
  · have herase : (l.eraseP fun i => condition (nodes i)) = l :=
      List.eraseP_of_forall_not fun i hi => by simp [hnone i hi]
    refine ⟨nodes, root, by rw [memoryHeapPop_none h.links hnone hsteps, hfind], ?_,
      .refl l nodes, ?_, fun _ => ⟨rfl, rfl⟩⟩
    · rw [herase]
      exact h
    · intro i hi
      rw [hfind] at hi
      cases hi

/-- In a list of rising sizes the first block that is large enough is a smallest one. -/
theorem find?_sizeHeapPopCondition (h : WellFormed nodes root l) (size : UInt64) {i : Nat}
    (hi : (l.find? fun j => sizeHeapPopCondition size (nodes j)) = some i) :
    i ∈ l ∧ size.toUInt32 ≤ (nodes i).blockSize.toUInt32 ∧
      ∀ j ∈ l, size.toUInt32 ≤ (nodes j).blockSize.toUInt32 →
        (nodes i).blockSize ≤ (nodes j).blockSize := by
  obtain ⟨henough, pre, post, rfl, hpre⟩ := List.find?_eq_some_iff_append.mp hi
  have hpost := (List.pairwise_append.mp h.ascending).2.1
  refine ⟨by simp, of_decide_eq_true henough, ?_⟩
  intro j hj hsize
  obtain hj | hj := List.mem_append.mp hj
  · have hsmall : (!sizeHeapPopCondition size (nodes j)) = true := hpre j hj
    simp [sizeHeapPopCondition, hsize] at hsmall
  · obtain rfl | hj := List.mem_cons.mp hj
    · exact UInt16.le_refl _
    · exact (List.pairwise_cons.mp hpost).1 j hj

theorem find?_sizeHeapPopCondition_none {size : UInt64}
    (hnone : (l.find? fun j => sizeHeapPopCondition size (nodes j)) = none) :
    ∀ j ∈ l, (nodes j).blockSize.toUInt32 < size.toUInt32 := by
  intro j hj
  simpa [sizeHeapPopCondition] using List.find?_eq_none.mp hnone j hj

/-- The operations on a list of blocks. A size is what the condition reads at its argument. -/
theorem memoryHeap_ok (h : WellFormed nodes root l) :
    (∀ newNode ∉ l, (nodes newNode).child = none → ∀ steps ≥ l.length,
      ∃ nodes' root', memoryHeapPush steps nodes root newNode = .ok (nodes', root') ∧
        Pushed nodes nodes' root' l newNode) ∧
    (∀ condition, ∀ steps ≥ l.length,
      ∃ nodes' root', memoryHeapPop steps nodes root condition =
          .ok (l.find? fun i => condition (nodes i), nodes', root') ∧
        Popped nodes nodes' root root' l fun i => condition (nodes i)) ∧
    ∀ (size : UInt64), ∀ steps ≥ l.length, ∃ node nodes' root',
      memoryHeapPop steps nodes root (sizeHeapPopCondition size) = .ok (node, nodes', root') ∧
        (∀ i, node = some i → i ∈ l ∧ size.toUInt32 ≤ (nodes i).blockSize.toUInt32 ∧
          ∀ j ∈ l, size.toUInt32 ≤ (nodes j).blockSize.toUInt32 →
            (nodes i).blockSize ≤ (nodes j).blockSize) ∧
        (node = none → ∀ j ∈ l, (nodes j).blockSize.toUInt32 < size.toUInt32) := by
  refine ⟨fun _ hnew hchild _ hsteps => memoryHeapPush_pushed h hnew hchild hsteps,
    fun condition _ hsteps => memoryHeapPop_popped h condition hsteps, ?_⟩
  intro size steps hsteps
  obtain ⟨nodes', root', hpop, -⟩ := memoryHeapPop_popped h (sizeHeapPopCondition size) hsteps
  exact ⟨_, nodes', root', hpop, fun _ hfind => find?_sizeHeapPopCondition h size hfind,
    find?_sizeHeapPopCondition_none⟩

/-- Blocks of two and of five bytes. -/
def twoBlocks : Nodes
  | 0 => ⟨0, 2, some 1⟩
  | 1 => ⟨2, 5, none⟩
  | i => ⟨.ofNat i, 3, none⟩

theorem wellFormed_twoBlocks : WellFormed twoBlocks (some 0) [0, 1] where
  links := by simp [childOf, twoBlocks]
  ascending := by simp [twoBlocks]

/-- The second block is the first that three bytes go into. -/
theorem memoryHeap_ok_two :
    (∃ nodes' root', memoryHeapPush 2 twoBlocks (some 0) 7 = .ok (nodes', root') ∧
      Pushed twoBlocks nodes' root' [0, 1] 7) ∧
    (∃ nodes' root',
      memoryHeapPop 2 twoBlocks (some 0) (sizeHeapPopCondition 3) = .ok (some 1, nodes', root') ∧
        Popped twoBlocks nodes' (some 0) root' [0, 1] fun i => sizeHeapPopCondition 3 (twoBlocks i)) ∧
    ∃ node nodes' root',
      memoryHeapPop 2 twoBlocks (some 0) (sizeHeapPopCondition 3) = .ok (node, nodes', root') ∧
        (∀ i, node = some i → i ∈ [0, 1] ∧ (3 : UInt64).toUInt32 ≤ (twoBlocks i).blockSize.toUInt32 ∧
          ∀ j ∈ [0, 1], (3 : UInt64).toUInt32 ≤ (twoBlocks j).blockSize.toUInt32 →
            (twoBlocks i).blockSize ≤ (twoBlocks j).blockSize) ∧
        (node = none → ∀ j ∈ [0, 1],
          (twoBlocks j).blockSize.toUInt32 < (3 : UInt64).toUInt32) := by
  obtain ⟨hpush, hpop, hsize⟩ := memoryHeap_ok wellFormed_twoBlocks
  exact ⟨hpush 7 (by decide) rfl 2 (by decide), hpop (sizeHeapPopCondition 3) 2 (by decide),
    hsize 3 2 (by decide)⟩

end
end WylesLibs.Memory
