import WylesLibs.Memory.Blocks
import WylesLibs.Memory.Emalloc

/-! The lists of nodes hold the lists of blocks, and the calls do to them what they do there. -/
namespace WylesLibs.Memory
open Library List

/-- The block that the node at `i` stands for. -/
def blockOf (nodes : Nodes) (i : Nat) : Block := ⟨(nodes i).index.toNat, (nodes i).blockSize.toNat⟩

/-- The list from `root` holds `blocks`; the node of a block stands at its index. -/
structure Holds (nodes : Nodes) (root : Option Nat) (blocks : List Block) : Prop where
  links : Links (childOf nodes) root (blocks.map Block.index)
  block : ∀ b ∈ blocks, blockOf nodes b.index = b

structure Represents (m : Allocator) (h : Heaps) : Prop where
  free : Holds m.nodes m.freedRootNode h.free
  used : Holds m.nodes m.usedRootNode h.used

section
variable {nodes nodes' : Nodes} {root : Option Nat} {blocks pre post : List Block} {b : Block}
variable {steps : Nat} {condition : MemoryHeapNode → Bool}

theorem Holds.congr (h : Holds nodes root blocks)
    (hnodes : ∀ b ∈ blocks, nodes' b.index = nodes b.index) : Holds nodes' root blocks where
  links := h.links.congr fun i hi => by
    obtain ⟨b, hb, rfl⟩ := List.mem_map.mp hi
    rw [childOf, childOf, hnodes b hb]
  block := fun b hb => by
    rw [blockOf, hnodes b hb]
    exact h.block b hb

theorem Relinked.blockOf {l : List Nat} (h : Relinked l nodes nodes') (i : Nat) :
    blockOf nodes' i = blockOf nodes i := by
  rw [Memory.blockOf, Memory.blockOf, h.index, h.blockSize]

theorem Holds.relinked {l : List Nat} (h : Holds nodes root blocks) (hrel : Relinked l nodes nodes')
    (hl : ∀ b ∈ blocks, b.index ∉ l) : Holds nodes' root blocks :=
  h.congr fun b hb => hrel.other b.index (hl b hb)

/-- `memoryHeapPush`, as it is on lists of blocks. -/
theorem Holds.push (h : Holds nodes root blocks) (hb : blockOf nodes b.index = b)
    (hchild : (nodes b.index).child = none) (hnew : b.index ∉ blocks.map Block.index)
    (hsteps : blocks.length ≤ steps) :
    ∃ nodes' root', memoryHeapPush steps nodes root b.index = .ok (nodes', root') ∧
      Holds nodes' root' (Heaps.push b blocks) ∧
      Relinked (b.index :: blocks.map Block.index) nodes nodes' := by
  obtain ⟨nodes', root', hpush, hlinks, hrel⟩ := memoryHeapPush_spec h.links hnew hchild
    (by simpa using hsteps)
  have hsize : ∀ c ∈ blocks, c.size = (nodes c.index).blockSize.toNat := fun c hc =>
    (congrArg Block.size (h.block c hc)).symm
  have hbsize : b.size = (nodes b.index).blockSize.toNat := (congrArg Block.size hb).symm
  have hmap : (Heaps.push b blocks).map Block.index =
      (blocks.map Block.index).orderedInsert (Smaller nodes) b.index := by
    refine List.map_orderedInsert _ _ _ blocks b (fun c hc => ?_) fun c hc => ?_
    · rw [Smaller, UInt16.lt_iff_toNat_lt, hsize c hc, hbsize]
    · rw [Smaller, UInt16.lt_iff_toNat_lt, hsize c hc, hbsize]
  refine ⟨nodes', root', hpush, ⟨hmap ▸ hlinks, fun c hc => ?_⟩, hrel⟩
  · rw [hrel.blockOf]
    obtain rfl | hc := mem_push.mp hc
    · exact hb
    · exact h.block c hc

theorem Holds.pop_none (condition : MemoryHeapNode → Bool) (h : Holds nodes root blocks)
    (hnone : ∀ c ∈ blocks, condition (nodes c.index) = false) (hsteps : blocks.length ≤ steps) :
    memoryHeapPop steps nodes root condition = .ok (none, nodes, root) :=
  memoryHeapPop_none h.links (by simpa using hnone) (by simpa using hsteps)

theorem Holds.pop_some (steps : Nat) (condition : MemoryHeapNode → Bool)
    (h : Holds nodes root (pre ++ b :: post))
    (hpre : ∀ c ∈ pre, condition (nodes c.index) = false) (hb : condition (nodes b.index) = true)
    (hsteps : pre.length < steps) :
    ∃ nodes' root', memoryHeapPop steps nodes root condition = .ok (some b.index, nodes', root') ∧
      Holds nodes' root' (pre ++ post) ∧ (nodes' b.index).child = none ∧
      Relinked ((pre ++ b :: post).map Block.index) nodes nodes' := by
  have hlinks := h.links
  rw [List.map_append, List.map_cons] at hlinks
  obtain ⟨nodes', root', hpop, hlinks', hchild, hrel⟩ := memoryHeapPop_some hlinks
    (by simpa using hpre) hb (by simpa using hsteps)
  refine ⟨nodes', root', hpop, ⟨by simpa using hlinks', fun c hc => ?_⟩, hchild, by simpa using hrel⟩
  rw [hrel.blockOf]
  refine h.block c ?_
  obtain hc | hc := List.mem_append.mp hc
  · exact List.mem_append_left _ hc
  · exact List.mem_append_right _ (List.mem_cons_of_mem b hc)

/-- A node that stands for a block of its own is written anew. -/
theorem Holds.update {i : Nat} (h : Holds nodes root blocks) (hi : i ∉ blocks.map Block.index)
    (node : MemoryHeapNode) : Holds (Function.update nodes i node) root blocks :=
  h.congr fun _ hb => Function.update_of_ne (fun heq => hi (by
    rw [← heq]
    exact List.mem_map_of_mem hb)) _ _

end

section
variable {n : Nat} {m : Allocator} {free used : List Block} {b : Block} {size : UInt64}

theorem useBlock_exact (hfree : Holds m.nodes m.freedRootNode free)
    (hused : Holds m.nodes m.usedRootNode used) (hb : blockOf m.nodes b.index = b)
    (hchild : (m.nodes b.index).child = none)
    (hnodup : (b.index :: (free ++ used).map Block.index).Nodup) (hlen : used.length ≤ n)
    (hsize : b.size = size.toNat) :
    ∃ m', useBlock n size b.index m = .ok m' ∧ Represents m' ⟨free, Heaps.push b used⟩ := by
  rw [List.map_append, List.nodup_cons, List.mem_append, not_or] at hnodup
  obtain ⟨⟨hbfree, hbused⟩, hnodup⟩ := hnodup
  have hdisjoint := (List.nodup_append.mp hnodup).2.2
  have heq : (m.nodes b.index).blockSize.toUInt64 = size := by
    apply UInt64.toNat.inj
    rw [UInt16.toNat_toUInt64, ← hsize]
    exact congrArg Block.size hb
  obtain ⟨nodes, root, hpush, husedHolds, hrel⟩ := hused.push hb hchild hbused hlen
  refine ⟨{ m with nodes := nodes, usedRootNode := root }, by simp [useBlock, heq, hpush],
    hfree.relinked hrel fun c hc hmem => ?_, husedHolds⟩
  have hcmem : c.index ∈ free.map Block.index := List.mem_map_of_mem hc
  obtain heq' | hmem := List.mem_cons.mp hmem
  · exact hbfree (heq' ▸ hcmem)
  · exact hdisjoint _ hcmem _ hmem rfl

theorem useBlock_split (hfree : Holds m.nodes m.freedRootNode free)
    (hused : Holds m.nodes m.usedRootNode used) (hb : blockOf m.nodes b.index = b)
    (hnodup : ((b.index + size.toNat) :: b.index :: (free ++ used).map Block.index).Nodup)
    (hfreeLen : free.length ≤ n) (husedLen : used.length ≤ n) (hsize : size.toNat < b.size)
    (hinside : b.index + b.size ≤ n) (hn : n ≤ 65535) :
    ∃ m', useBlock n size b.index m = .ok m' ∧
      Represents m' ⟨Heaps.push ⟨b.index + size.toNat, b.size - size.toNat⟩ free,
        Heaps.push ⟨b.index, size.toNat⟩ used⟩ := by
  rw [List.map_append, List.nodup_cons, List.nodup_cons, List.mem_cons, List.mem_append,
    List.mem_append, not_or, not_or, not_or] at hnodup
  obtain ⟨⟨hne, hifree, hiused⟩, ⟨hbfree, hbused⟩, hnodup⟩ := hnodup
  have hdisjoint := (List.nodup_append.mp hnodup).2.2
  have hindex : (m.nodes b.index).index.toNat = b.index := congrArg Block.index hb
  have hblockSize : (m.nodes b.index).blockSize.toNat = b.size := congrArg Block.size hb
  have hne' : (m.nodes b.index).blockSize.toUInt64 ≠ size := fun heq => by
    have := congrArg UInt64.toNat heq
    rw [UInt16.toNat_toUInt64, hblockSize] at this
    omega
  have hfreedIndex : ((m.nodes b.index).index.toUInt64 + size).toUInt32.toNat =
      b.index + size.toNat := by
    simp [hindex]
    omega
  have hlt : ¬ n ≤ b.index + size.toNat := by omega
  -- the rest of the block goes to the freed list
  let rest : Block := ⟨b.index + size.toNat, b.size - size.toNat⟩
  let nodes₁ := Function.update m.nodes rest.index
    ⟨((m.nodes b.index).index.toUInt64 + size).toUInt32.toUInt16,
      ((m.nodes b.index).blockSize.toUInt64 - size).toUInt16, none⟩
  have hrest : blockOf nodes₁ rest.index = rest := by
    have hle : size ≤ (m.nodes b.index).blockSize.toUInt64 := by
      rw [UInt64.le_iff_toNat_le, UInt16.toNat_toUInt64, hblockSize]
      omega
    have hsub : ((m.nodes b.index).blockSize.toUInt64 - size).toNat = b.size - size.toNat := by
      rw [UInt64.toNat_sub_of_le _ _ hle, UInt16.toNat_toUInt64, hblockSize]
    simp only [blockOf, nodes₁, Function.update_self, UInt32.toNat_toUInt16, hfreedIndex,
      UInt64.toNat_toUInt16, hsub, rest, Block.mk.injEq]
    constructor <;> omega
  obtain ⟨nodes₂, freedRoot, hpush, hfree₂, hrel₂⟩ := (hfree.update hifree _).push hrest
    (by rw [Function.update_self]) hifree hfreeLen
  have hused₂ : Holds nodes₂ m.usedRootNode used :=
    (hused.update hiused _).relinked hrel₂ fun c hc hmem => by
      have hcmem : c.index ∈ used.map Block.index := List.mem_map_of_mem hc
      obtain heq | hmem := List.mem_cons.mp hmem
      · exact hiused (show rest.index ∈ _ from heq ▸ hcmem)
      · exact hdisjoint _ hmem _ hcmem rfl
  -- the start of it goes to the used list
  have hindex₂ : (nodes₂ b.index).index = (m.nodes b.index).index := by
    rw [hrel₂.index, Function.update_of_ne (Ne.symm hne)]
  let start : Block := ⟨b.index, size.toNat⟩
  let nodes₃ := Function.update nodes₂ start.index ⟨(m.nodes b.index).index, size.toUInt16, none⟩
  have hstart : blockOf nodes₃ start.index = start := by
    have hmod : size.toNat % 2 ^ 16 = size.toNat := Nat.mod_eq_of_lt (by omega)
    simp only [blockOf, nodes₃, Function.update_self]
    rw [hindex, UInt64.toNat_toUInt16, hmod]
  obtain ⟨nodes₄, usedRoot, hpush', hused₄, hrel₄⟩ := (hused₂.update hbused _).push hstart
    (by rw [Function.update_self]) hbused husedLen
  have hbpush : b.index ∉ (Heaps.push rest free).map Block.index := fun hmem => by
    obtain ⟨c, hc, heq⟩ := List.mem_map.mp hmem
    obtain rfl | hc := mem_push.mp hc
    · exact hne heq
    · exact hbfree (heq ▸ List.mem_map_of_mem hc)
  have hfree₄ : Holds nodes₄ freedRoot (Heaps.push rest free) :=
    (hfree₂.update hbpush _).relinked hrel₄ fun c hc hmem => by
      obtain heq | hmem := List.mem_cons.mp hmem
      · exact hbpush (List.mem_map.mpr ⟨c, hc, heq⟩)
      · obtain rfl | hc := mem_push.mp hc
        · exact hiused hmem
        · exact hdisjoint _ (List.mem_map_of_mem hc) _ hmem rfl
  refine ⟨{ m with nodes := nodes₄, freedRootNode := freedRoot, usedRootNode := usedRoot }, ?_,
    hfree₄, hused₄⟩
  have hpush₁ : memoryHeapPush n nodes₁ m.freedRootNode (b.index + size.toNat) =
      .ok (nodes₂, freedRoot) := hpush
  have hpush₂ : memoryHeapPush n (Function.update nodes₂ b.index
      ⟨(m.nodes b.index).index, size.toUInt16, none⟩) m.usedRootNode b.index =
      .ok (nodes₄, usedRoot) := hpush'
  simp only [useBlock, if_neg hne', hfreedIndex, if_neg hlt]
  rw [show Function.update m.nodes (b.index + size.toNat) _ = nodes₁ from rfl, hpush₁,
    Outcome.bind_ok]
  simp only [hindex₂, hindex, hpush₂, Outcome.bind_ok]

end

section
variable {n : Nat} {m : Allocator} {h : Heaps}

theorem Holds.root_eq_none {nodes : Nodes} {root : Option Nat} {blocks : List Block}
    (h : Holds nodes root blocks) : root = none ↔ blocks = [] := by
  constructor
  · rintro rfl
    simpa using h.links.eq_nil
  · rintro rfl
    exact h.links

theorem initializeData_refines (hr : Represents m h) (hn : 1 ≤ n) (hn' : n ≤ 65535) :
    ∃ m', initializeData n m = .ok m' ∧ Represents m' (h.initial n) := by
  by_cases hempty : h.free = [] ∧ h.used = []
  · have hroots : m.freedRootNode = none ∧ m.usedRootNode = none :=
      ⟨hr.free.root_eq_none.mpr hempty.1, hr.used.root_eq_none.mpr hempty.2⟩
    rw [Heaps.initial, if_pos hempty]
    refine ⟨⟨Function.update m.nodes 0 ⟨0, UInt16.ofNat n, none⟩, some 0, none⟩, ?_,
      ⟨⟨rfl, by simp [childOf]⟩, fun b hb => ?_⟩, ⟨rfl, by simp⟩⟩
    · simp [initializeData, hroots, memoryHeapPush]
    · obtain rfl := List.mem_singleton.mp hb
      simp [blockOf]
      omega
  · have hroots : ¬ (m.freedRootNode = none ∧ m.usedRootNode = none) := fun hnone =>
      hempty ⟨hr.free.root_eq_none.mp hnone.1, hr.used.root_eq_none.mp hnone.2⟩
    rw [Heaps.initial, if_neg hempty]
    exact ⟨m, by rw [initializeData, if_neg hroots], hr⟩

theorem sizeHeapPopCondition_iff {nodes : Nodes} {b : Block} (hb : blockOf nodes b.index = b)
    (size : UInt64) : sizeHeapPopCondition size (nodes b.index) =
      decide (size.toNat % 2 ^ 32 ≤ b.size) := by
  have hblockSize := congrArg Block.size hb
  simp only [blockOf] at hblockSize
  simp only [sizeHeapPopCondition, UInt32.le_iff_toNat_le, UInt64.toNat_toUInt32,
    UInt16.toNat_toUInt32, hblockSize]

/-- No freed block is as large as what is left of the size in 32 bits. -/
theorem takeBlock_none (hr : Represents m h) (hlen : h.free.length ≤ n) {size : UInt64}
    (hnone : ∀ b ∈ h.free, b.size < size.toNat % 2 ^ 32) :
    takeBlock n size m = .ok (none, m) := by
  have hpop := hr.free.pop_none (sizeHeapPopCondition size)
    (fun b hb => by
      rw [sizeHeapPopCondition_iff (hr.free.block b hb), decide_eq_false_iff_not]
      have hlt := hnone b hb
      omega) hlen
  simp only [takeBlock, hpop, Outcome.bind_ok]

theorem takeBlock_refines (hr : Represents m h) (ht : Tiled n h) (hn' : n ≤ 65535) {size : UInt64}
    (hsize : size.toNat < 2 ^ 32) (hpos : 1 ≤ size.toNat) :
    ∃ m', takeBlock n size m = .ok ((h.take size.toNat).1.map UInt32.ofNat, m') ∧
      Represents m' (h.take size.toNat).2 := by
  have hlen := ht.length_le
  have hcondition : ∀ b ∈ h.free, sizeHeapPopCondition size (m.nodes b.index) =
      decide (size.toNat ≤ b.size) := fun b hb => by
    rw [sizeHeapPopCondition_iff (hr.free.block b hb), Nat.mod_eq_of_lt hsize]
  obtain ⟨pre, b, post, hfree, hpre, hb, hfind, herase⟩ | ⟨hnone, hfind⟩ :=
    first_match h.free fun b => decide (size.toNat ≤ b.size)
  · have hbmem : b ∈ h.free := by simp [hfree]
    have hle : size.toNat ≤ b.size := of_decide_eq_true hb
    have hinside := ht.inside (List.mem_append_left _ hbmem)
    have hholds := hr.free
    rw [hfree] at hholds
    obtain ⟨nodes, root, hpop, hfree', hchild, hrel⟩ := hholds.pop_some n (sizeHeapPopCondition size)
      (fun c hc => by rw [hcondition c (by simp [hfree, hc]), hpre c hc])
      (by rw [hcondition b hbmem, hb])
      (by simp [hfree] at hlen; omega)
    have hnodup : (b.index :: ((pre ++ post) ++ h.used).map Block.index).Nodup := by
      have hall := ht.nodup_index
      rw [hfree] at hall
      exact ((List.perm_middle.append_right h.used).map Block.index).nodup_iff.mp hall
    have hused' : Holds nodes m.usedRootNode h.used := hr.used.relinked hrel fun c hc hmem => by
      have hall := ht.nodup_index
      rw [hfree, List.map_append] at hall
      exact (List.nodup_append.mp hall).2.2 _ hmem _ (List.mem_map_of_mem hc) rfl
    have hblock : blockOf nodes b.index = b := (hrel.blockOf _).trans (hr.free.block b hbmem)
    have hindex : (nodes b.index).index.toNat = b.index := congrArg Block.index hblock
    have hptr : (nodes b.index).index.toUInt32 = UInt32.ofNat b.index := by
      apply UInt32.toNat.inj
      rw [UInt16.toNat_toUInt32, hindex, UInt32.toNat_ofNat', Nat.mod_eq_of_lt (by omega)]
    have hchecks : ¬ ((nodes b.index).blockSize.toUInt64 < size ∨
        n ≤ b.index) := by
      have hblockSize : (nodes b.index).blockSize.toNat = b.size := congrArg Block.size hblock
      rw [UInt64.lt_iff_toNat_lt, UInt16.toNat_toUInt64, hblockSize]
      omega
    by_cases heq : b.size = size.toNat
    · obtain ⟨m', huse, hr'⟩ := useBlock_exact (n := n) (m := ⟨nodes, root, m.usedRootNode⟩)
        hfree' hused' hblock hchild hnodup (by omega) heq
      refine ⟨m', ?_, ?_⟩
      · simp only [takeBlock, hpop, Outcome.bind_ok, hindex, if_neg hchecks, huse, hptr, Heaps.take,
          hfind, Option.map_some, if_pos heq]
      · simpa only [Heaps.take, hfind, herase, if_pos heq] using hr'
    · have hfresh : b.index + size.toNat ∉ b.index :: ((pre ++ post) ++ h.used).map Block.index := by
        intro hmem
        have hmem' : b.index + size.toNat ∈ (h.free ++ h.used).map Block.index := by
          rw [hfree]
          exact ((List.perm_middle.append_right h.used).map Block.index).mem_iff.mpr hmem
        obtain ⟨c, hc, hcindex⟩ := List.mem_map.mp hmem'
        have hcpos := ht.positive c hc
        have hcb := ht.eq_of_covers hc (List.mem_append_left _ hbmem) (x := b.index + size.toNat)
          (covers_iff.mpr (by omega)) (covers_iff.mpr (by omega))
        rw [hcb] at hcindex
        omega
      obtain ⟨m', huse, hr'⟩ := useBlock_split (n := n) (m := ⟨nodes, root, m.usedRootNode⟩)
        hfree' hused' hblock (List.nodup_cons.mpr ⟨hfresh, hnodup⟩)
        (by simp [hfree] at hlen ⊢; omega) (by omega) (by omega) hinside hn'
      refine ⟨m', ?_, ?_⟩
      · simp only [takeBlock, hpop, Outcome.bind_ok, hindex, if_neg hchecks, huse, hptr, Heaps.take,
          hfind, Option.map_some, if_neg heq]
      · simpa only [Heaps.take, hfind, herase, if_neg heq] using hr'
  · have htake := takeBlock_none (n := n) hr (by omega) fun c hc => by
      have hlt : ¬ size.toNat ≤ c.size := of_decide_eq_false (hnone c hc)
      rw [Nat.mod_eq_of_lt hsize]
      omega
    refine ⟨m, ?_, by simpa only [Heaps.take, hfind] using hr⟩
    simp only [htake, Heaps.take, hfind, Option.map_none]

theorem emalloc_refines (hr : Represents m h) (hready : h.Ready n) (hn : 1 ≤ n) (hn' : n ≤ 65535)
    {size : UInt64} (hsize : size.toNat < 2 ^ 32) :
    ∃ m', emalloc n size m = .ok ((h.emalloc n size.toNat).1.map UInt32.ofNat, m') ∧
      Represents m' (h.emalloc n size.toNat).2 := by
  obtain ⟨m, hinit, hr⟩ := initializeData_refines hr hn hn'
  have ht := hready.initial hn
  by_cases hzero : size.toNat < 1
  · refine ⟨m, ?_, ?_⟩
    · have hzero' : size < 1 := UInt64.lt_iff_toNat_lt.mpr hzero
      simp [emalloc, hinit, hzero', Heaps.emalloc, hzero]
    · rw [Heaps.emalloc, if_pos hzero]
      exact hr
  · have hzero' : ¬ size < 1 := fun hlt => hzero (UInt64.lt_iff_toNat_lt.mp hlt)
    obtain ⟨m', htake, hr'⟩ := takeBlock_refines hr ht hn' hsize (by omega)
    rw [Heaps.emalloc, if_neg hzero]
    exact ⟨m', by simp only [emalloc, hinit, Outcome.bind_ok, if_neg hzero', htake], hr'⟩

theorem mergeBlock_refines {free used : List Block} {b : Block} {index : UInt32}
    (hfree : Holds m.nodes m.freedRootNode free) (hused : Holds m.nodes m.usedRootNode used)
    (hb : blockOf m.nodes b.index = b) (hchild : (m.nodes b.index).child = none)
    (hnodup : (b.index :: (free ++ used).map Block.index).Nodup) (hlen : free.length ≤ n)
    (hinside : ∀ f ∈ free, f.index + f.size ≤ n) (hindex : index.toNat = b.index)
    (hbinside : b.index + b.size ≤ n) (hn' : n ≤ 65535) :
    ∃ m', mergeBlock n index b.index m = .ok m' ∧ Represents m' ⟨Heaps.merge b free, used⟩ := by
  rw [List.map_append, List.nodup_cons, List.mem_append, not_or] at hnodup
  obtain ⟨⟨hbfree, hbused⟩, hnodup⟩ := hnodup
  have hdisjoint := (List.nodup_append.mp hnodup).2.2
  have hcondition : ∀ f ∈ free, mergeHeapPopCondition index (m.nodes f.index) =
      decide (f.index + f.size = b.index) := fun f hf => by
    have hblock := hfree.block f hf
    have hfindex := congrArg Block.index hblock
    have hfsize := congrArg Block.size hblock
    simp only [blockOf] at hfindex hfsize
    have hle := hinside f hf
    rw [mergeHeapPopCondition, Bool.eq_iff_iff, beq_iff_eq, decide_eq_true_iff,
      ← UInt32.toNat_inj, UInt32.toNat_add, UInt16.toNat_toUInt32, UInt16.toNat_toUInt32, hfindex,
      hfsize, hindex, Nat.mod_eq_of_lt (by omega)]
  obtain ⟨pre, f, post, hsplit, hpre, hf, hfind, herase⟩ | ⟨hnone, hfind⟩ :=
    first_match free fun f => decide (f.index + f.size = b.index)
  · have hfmem : f ∈ free := by simp [hsplit]
    have hmeet : f.index + f.size = b.index := of_decide_eq_true hf
    have hblock := hfree.block f hfmem
    have hfreeNodup := (List.nodup_append.mp hnodup).1
    rw [hsplit] at hfree hfreeNodup
    obtain ⟨nodes₁, root₁, hpop, hfree₁, hchild₁, hrel₁⟩ := hfree.pop_some n (mergeHeapPopCondition index)
      (fun c hc => by rw [hcondition c (by simp [hsplit, hc]), hpre c hc])
      (by rw [hcondition f hfmem, hf]) (by simp [hsplit] at hlen; omega)
    have hused₁ : Holds nodes₁ m.usedRootNode used := hused.relinked hrel₁ fun c hc hmem =>
      hdisjoint _ (hsplit ▸ hmem) _ (List.mem_map_of_mem hc) rfl
    -- the block that was found takes in the freed one
    let merged : Block := ⟨f.index, f.size + b.size⟩
    let nodes₂ := Function.update nodes₁ merged.index { nodes₁ merged.index with
      blockSize := (nodes₁ merged.index).blockSize + (nodes₁ b.index).blockSize }
    have hfnew : merged.index ∉ (pre ++ post).map Block.index :=
      (List.nodup_cons.mp ((List.perm_middle.map Block.index).nodup_iff.mp hfreeNodup)).1
    have hfused : merged.index ∉ used.map Block.index := fun hmem =>
      hdisjoint _ (List.mem_map_of_mem hfmem) _ hmem rfl
    have hmerged : blockOf nodes₂ merged.index = merged := by
      have hfindex : (nodes₁ f.index).index.toNat = f.index := by
        rw [hrel₁.index]
        exact congrArg Block.index hblock
      have hfsize : (nodes₁ f.index).blockSize.toNat = f.size := by
        rw [hrel₁.blockSize]
        exact congrArg Block.size hblock
      have hbsize : (nodes₁ b.index).blockSize.toNat = b.size := by
        rw [hrel₁.blockSize]
        exact congrArg Block.size hb
      have hmod : (f.size + b.size) % 2 ^ 16 = f.size + b.size := Nat.mod_eq_of_lt (by omega)
      simp only [blockOf, nodes₂, Function.update_self, merged]
      rw [hfindex, UInt16.toNat_add, hfsize, hbsize, hmod]
    obtain ⟨nodes₃, root₃, hpush, hfree₃, hrel₃⟩ := (hfree₁.update hfnew _).push hmerged
      (by rw [Function.update_self]; exact hchild₁) hfnew
      (show (pre ++ post).length ≤ n by simp [hsplit] at hlen ⊢; omega)
    refine ⟨⟨nodes₃, root₃, m.usedRootNode⟩, ?_, ?_, ?_⟩
    · simp only [mergeBlock, hpop, Outcome.bind_ok]
      rw [show memoryHeapPush n _ root₁ f.index = .ok (nodes₃, root₃) from hpush, Outcome.bind_ok]
    · simpa only [Heaps.merge, hfind, herase] using hfree₃
    · refine (hused₁.update hfused _).relinked hrel₃ fun c hc hmem => ?_
      have hcmem : c.index ∈ used.map Block.index := List.mem_map_of_mem hc
      obtain heq | hmem := List.mem_cons.mp hmem
      · exact hfused (heq ▸ hcmem)
      · refine hdisjoint _ ?_ _ hcmem rfl
        rw [hsplit]
        exact (List.perm_middle.map Block.index).mem_iff.mpr (List.mem_cons_of_mem _ hmem)
  · have hpop := hfree.pop_none (mergeHeapPopCondition index)
      (fun c hc => by rw [hcondition c hc, hnone c hc]) hlen
    obtain ⟨nodes, root, hpush, hfree', hrel⟩ := hfree.push hb hchild hbfree hlen
    refine ⟨⟨nodes, root, m.usedRootNode⟩, by simp [mergeBlock, hpop, hpush], ?_, ?_⟩
    · simpa only [Heaps.merge, hfind] using hfree'
    · refine hused.relinked hrel fun c hc hmem => ?_
      have hcmem : c.index ∈ used.map Block.index := List.mem_map_of_mem hc
      obtain heq | hmem := List.mem_cons.mp hmem
      · exact hbused (heq ▸ hcmem)
      · exact hdisjoint _ hmem _ hcmem rfl

theorem ptrHeapPopCondition_iff {nodes : Nodes} {b : Block} (hb : blockOf nodes b.index = b)
    (ptr : UInt32) : ptrHeapPopCondition ptr (nodes b.index) = decide (b.index = ptr.toNat) := by
  have hindex := congrArg Block.index hb
  simp only [blockOf] at hindex
  rw [ptrHeapPopCondition, Bool.eq_iff_iff, beq_iff_eq, decide_eq_true_iff, ← UInt32.toNat_inj,
    UInt16.toNat_toUInt32, hindex, eq_comm]

/-- No used block starts at the pointer. -/
theorem efree_unchanged (hr : Represents m h) (hlen : h.used.length ≤ n) {ptr : UInt32}
    (hnone : ∀ b ∈ h.used, b.index ≠ ptr.toNat) : efree n (some ptr) m = .ok m := by
  have hpop := hr.used.pop_none (ptrHeapPopCondition ptr)
    (fun b hb => by
      rw [ptrHeapPopCondition_iff (hr.used.block b hb), decide_eq_false_iff_not]
      exact hnone b hb) hlen
  simp only [efree, hpop, Outcome.bind_ok]
  split <;> rfl

theorem release_refines (hr : Represents m h) (ht : Tiled n h) (hn' : n ≤ 65535) (ptr : UInt32) :
    ∃ m', efree n (some ptr) m = .ok m' ∧ Represents m' (h.release ptr.toNat) := by
  have hlen := ht.length_le
  have hcondition : ∀ b ∈ h.used, ptrHeapPopCondition ptr (m.nodes b.index) =
      decide (b.index = ptr.toNat) := fun b hb =>
    ptrHeapPopCondition_iff (hr.used.block b hb) ptr
  obtain ⟨pre, b, post, hused, hpre, hb, hfind, herase⟩ | ⟨hnone, hfind⟩ :=
    first_match h.used fun b => decide (b.index = ptr.toNat)
  · have hbindex : b.index = ptr.toNat := of_decide_eq_true hb
    have hbmem : b ∈ h.used := by simp [hused]
    have hpos := ht.positive b (List.mem_append_right _ hbmem)
    have hinside := ht.inside (List.mem_append_right _ hbmem)
    have hlt : ¬ n ≤ ptr.toNat := by omega
    have hholds := hr.used
    rw [hused] at hholds
    obtain ⟨nodes, root, hpop, hused', hchild, hrel⟩ := hholds.pop_some n (ptrHeapPopCondition ptr)
      (fun c hc => by rw [hcondition c (by simp [hused, hc]), hpre c hc])
      (by rw [hcondition b hbmem, hb]) (by simp [hused] at hlen; omega)
    have hall := ht.nodup_index
    rw [hused] at hall
    have hfree' : Holds nodes m.freedRootNode h.free := hr.free.relinked hrel fun c hc hmem => by
      rw [List.map_append] at hall
      exact (List.nodup_append.mp hall).2.2 _ (List.mem_map_of_mem hc) _ hmem rfl
    have hnodup : (b.index :: (h.free ++ (pre ++ post)).map Block.index).Nodup := by
      have hperm : h.free ++ (pre ++ b :: post) ~ b :: (h.free ++ (pre ++ post)) :=
        (List.perm_middle.append_left _).trans List.perm_middle
      exact (hperm.map Block.index).nodup_iff.mp hall
    obtain ⟨m', hmerge, hr'⟩ := mergeBlock_refines (n := n) (m := ⟨nodes, m.freedRootNode, root⟩)
      hfree' hused' ((hrel.blockOf _).trans (hr.used.block b hbmem))
      hchild hnodup (by omega) (fun f hf => ht.inside (List.mem_append_left _ hf))
      hbindex.symm hinside hn'
    refine ⟨m', by simp only [efree, if_neg hlt, hpop, Outcome.bind_ok, hmerge], ?_⟩
    simpa only [Heaps.release, hfind, herase] using hr'
  · refine ⟨m, efree_unchanged hr (by omega) fun b hb => ?_, ?_⟩
    · exact of_decide_eq_false (hnone b hb)
    · simpa only [Heaps.release, hfind] using hr

theorem efree_refines (hr : Represents m h) (hready : h.Ready n) (hn' : n ≤ 65535)
    (ptr : Option UInt32) :
    ∃ m', efree n ptr m = .ok m' ∧ Represents m' (h.efree (ptr.map UInt32.toNat)) := by
  cases ptr with
  | none => exact ⟨m, rfl, hr⟩
  | some ptr =>
    obtain rfl | ht := hready
    · exact ⟨m, efree_unchanged hr (Nat.zero_le n) (by simp), hr⟩
    · exact release_refines hr ht hn' ptr

end
end WylesLibs.Memory
