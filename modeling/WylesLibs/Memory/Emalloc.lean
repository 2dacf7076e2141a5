import WylesLibs.Memory.Heap

/-! `emalloc` and `efree`: a pool of `DYNAMIC_MEMORY_SIZE` bytes, one node for each of them, and the
lists of the freed and the used blocks. A pointer is its distance from the start of the pool, in
the 32 bits that `efree` takes of it. -/
namespace WylesLibs.Memory
open Library

/-- The static data, the pool itself aside. -/
structure Allocator where
  nodes : Nodes
  freedRootNode : Option Nat
  usedRootNode : Option Nat

/-- What the program starts with. -/
def Allocator.start : Allocator := ⟨fun _ => ⟨0, 0, none⟩, none, none⟩

section
variable (dynamicMemorySize : Nat)

def initializeData (m : Allocator) : Outcome Allocator :=
  if m.freedRootNode = none ∧ m.usedRootNode = none then
    let nodes := Function.update m.nodes 0 ⟨0, UInt16.ofNat dynamicMemorySize, none⟩
    (memoryHeapPush dynamicMemorySize nodes m.freedRootNode 0).bind fun (nodes, root) =>
    .ok { m with nodes := nodes, freedRootNode := root }
  else .ok m

/-- The part of `emalloc` behind its checks of `node`, the block that it took. -/
def useBlock (size : UInt64) (node : Nat) (m : Allocator) : Outcome Allocator :=
  if (m.nodes node).blockSize.toUInt64 = size then
    (memoryHeapPush dynamicMemorySize m.nodes m.usedRootNode node).bind fun (nodes, root) =>
    .ok { m with nodes := nodes, usedRootNode := root }
  else
    let block := m.nodes node
    let freedIndex := (block.index.toUInt64 + size).toUInt32
    if dynamicMemorySize ≤ freedIndex.toNat then .undef
    else
      let nodes := Function.update m.nodes freedIndex.toNat
        ⟨freedIndex.toUInt16, (block.blockSize.toUInt64 - size).toUInt16, none⟩
      (memoryHeapPush dynamicMemorySize nodes m.freedRootNode freedIndex.toNat).bind
        fun (nodes, freedRoot) =>
      let index := (nodes node).index
      let nodes := Function.update nodes index.toNat ⟨index, size.toUInt16, none⟩
      (memoryHeapPush dynamicMemorySize nodes m.usedRootNode index.toNat).bind
        fun (nodes, usedRoot) =>
      .ok { m with nodes := nodes, freedRootNode := freedRoot, usedRootNode := usedRoot }

/-- `emalloc` behind its check of `size`. -/
def takeBlock (size : UInt64) (m : Allocator) : Outcome (Option UInt32 × Allocator) :=
  (memoryHeapPop dynamicMemorySize m.nodes m.freedRootNode (sizeHeapPopCondition size)).bind
    fun (node, nodes, root) =>
  let m := { m with nodes := nodes, freedRootNode := root }
  match node with
  | none => .ok (none, m)
  | some node =>
    if (m.nodes node).blockSize.toUInt64 < size ∨
        dynamicMemorySize ≤ (m.nodes node).index.toNat then .ok (none, m)
    else (useBlock dynamicMemorySize size node m).bind fun m' =>
      .ok (some (m.nodes node).index.toUInt32, m')

def emalloc (size : UInt64) (m : Allocator) : Outcome (Option UInt32 × Allocator) :=
  (initializeData dynamicMemorySize m).bind fun m =>
  if size < 1 then .ok (none, m) else takeBlock dynamicMemorySize size m

/-- What a freed block becomes: a block of its own, or the end of the one before it. -/
def mergeBlock (index : UInt32) (freed : Nat) (m : Allocator) : Outcome Allocator :=
  (memoryHeapPop dynamicMemorySize m.nodes m.freedRootNode (mergeHeapPopCondition index)).bind
    fun (foundContigious, nodes, root) =>
  match foundContigious with
  | none =>
    (memoryHeapPush dynamicMemorySize nodes root freed).bind fun (nodes, root) =>
    .ok { m with nodes := nodes, freedRootNode := root }
  | some found =>
    let nodes := Function.update nodes found { nodes found with
      blockSize := (nodes found).blockSize + (nodes freed).blockSize }
    (memoryHeapPush dynamicMemorySize nodes root found).bind fun (nodes, root) =>
    .ok { m with nodes := nodes, freedRootNode := root }

def efree (ptr : Option UInt32) (m : Allocator) : Outcome Allocator :=
  match ptr with
  | none => .ok m
  | some index =>
    if dynamicMemorySize ≤ index.toNat then .ok m
    else
      (memoryHeapPop dynamicMemorySize m.nodes m.usedRootNode (ptrHeapPopCondition index)).bind
        fun (freed, nodes, root) =>
      let m := { m with nodes := nodes, usedRootNode := root }
      match freed with
      | none => .ok m
      | some freed => mergeBlock dynamicMemorySize index freed m

end

end WylesLibs.Memory
