import WylesLibs.Library.Links

/-! A pool of bytes as two lists of blocks, and what allocating and freeing does to them. -/
namespace WylesLibs.Memory
open Library List

structure Block where
  index : Nat
  size : Nat
  deriving DecidableEq

structure Heaps where
  free : List Block
  used : List Block

namespace Heaps

/-- A block goes before the first one that is larger. -/
def push (b : Block) (l : List Block) : List Block := l.orderedInsert (fun a b => a.size < b.size) b

def initial (n : Nat) (h : Heaps) : Heaps :=
  if h.free = [] ∧ h.used = [] then ⟨[⟨0, n⟩], []⟩ else h

/-- The smallest block that is large enough is used, and what is left of it stays free. -/
def take (size : Nat) (h : Heaps) : Option Nat × Heaps :=
  match h.free.find? fun b => decide (size ≤ b.size) with
  | none => (none, h)
  | some b =>
    let free := h.free.eraseP fun b => decide (size ≤ b.size)
    if b.size = size then (some b.index, ⟨free, push b h.used⟩)
    else (some b.index, ⟨push ⟨b.index + size, b.size - size⟩ free, push ⟨b.index, size⟩ h.used⟩)

/-- A freed block is one of its own, or the end of the free one right before it. -/
def merge (b : Block) (free : List Block) : List Block :=
  match free.find? fun f => decide (f.index + f.size = b.index) with
  | none => push b free
  | some f =>
    push ⟨f.index, f.size + b.size⟩ (free.eraseP fun f => decide (f.index + f.size = b.index))

def release (ptr : Nat) (h : Heaps) : Heaps :=
  match h.used.find? fun b => decide (b.index = ptr) with
  | none => h
  | some b => ⟨merge b h.free, h.used.eraseP fun b => decide (b.index = ptr)⟩

def emalloc (n size : Nat) (h : Heaps) : Option Nat × Heaps :=
  if size < 1 then (none, h.initial n) else (h.initial n).take size

def efree (ptr : Option Nat) (h : Heaps) : Heaps :=
  match ptr with
  | none => h
  | some ptr => h.release ptr

end Heaps

/-! What is true of the blocks between two calls. -/

def Block.covers (x : Nat) (b : Block) : Bool := decide (b.index ≤ x ∧ x < b.index + b.size)

/-- Every byte of a pool of `n` is in exactly one block, and the lists go up by the size. -/
structure Tiled (n : Nat) (h : Heaps) : Prop where
  positive : ∀ b ∈ h.free ++ h.used, 0 < b.size
  cover : ∀ x, (h.free ++ h.used).countP (Block.covers x) = if x < n then 1 else 0
  free : h.free.Pairwise fun a b => a.size ≤ b.size
  used : h.used.Pairwise fun a b => a.size ≤ b.size

section
variable {n : Nat} {h h' : Heaps} {b c : Block} {l l' pre post : List Block}

theorem push_perm (b : Block) (l : List Block) : Heaps.push b l ~ b :: l :=
  List.perm_orderedInsert _ b l

theorem mem_push : c ∈ Heaps.push b l ↔ c = b ∨ c ∈ l := List.mem_orderedInsert _

theorem push_pairwise (hl : l.Pairwise fun a b => a.size ≤ b.size) :
    (Heaps.push b l).Pairwise fun a b => a.size ≤ b.size :=
  pairwise_orderedInsert (fun _ _ => Iff.rfl) hl b

theorem covers_iff {x : Nat} : b.covers x = true ↔ b.index ≤ x ∧ x < b.index + b.size := by
  simp [Block.covers]

/-- Blocks that cover no byte twice are apart. -/
theorem pairwise_of_countP_le (hl : ∀ x, l.countP (Block.covers x) ≤ 1) :
    l.Pairwise fun b c => ∀ x, b.covers x = true → c.covers x = false := by
  induction l with
  | nil => exact .nil
  | cons b l ih =>
    refine List.pairwise_cons.mpr ⟨fun c hc x hb => ?_, ih fun x => ?_⟩
    · have hle := hl x
      rw [List.countP_cons_of_pos hb] at hle
      have hzero : l.countP (Block.covers x) = 0 := by omega
      simpa using List.countP_eq_zero.mp hzero c hc
    · refine le_trans ?_ (hl x)
      rw [List.countP_cons]
      omega

theorem Tiled.apart (h : Tiled n h') : (h'.free ++ h'.used).Pairwise fun b c =>
    ∀ x, b.covers x = true → c.covers x = false :=
  pairwise_of_countP_le fun x => by
    rw [h.cover x]
    split <;> omega

theorem Tiled.inside (h : Tiled n h') (hb : b ∈ h'.free ++ h'.used) : b.index + b.size ≤ n := by
  have hpos := h.positive b hb
  have hlast : b.covers (b.index + b.size - 1) = true := covers_iff.mpr (by omega)
  have hcount : 0 < (h'.free ++ h'.used).countP (Block.covers (b.index + b.size - 1)) :=
    List.countP_pos_iff.mpr ⟨b, hb, hlast⟩
  rw [h.cover] at hcount
  split at hcount <;> omega

theorem Tiled.nodup_index (h : Tiled n h') : ((h'.free ++ h'.used).map Block.index).Nodup := by
  refine List.pairwise_map.mpr (List.Pairwise.imp_of_mem (fun {b c} hb hc hapart heq => ?_) h.apart)
  have hbpos := h.positive b hb
  have hcpos := h.positive c hc
  have hbcovers : b.covers b.index = true := covers_iff.mpr (by omega)
  have hccovers : c.covers b.index = true := covers_iff.mpr (by omega)
  simp [hapart b.index hbcovers] at hccovers

theorem Tiled.eq_of_covers (h : Tiled n h') (hb : b ∈ h'.free ++ h'.used)
    (hc : c ∈ h'.free ++ h'.used) {x : Nat} (hbx : b.covers x = true) (hcx : c.covers x = true) :
    b = c := by
  by_contra hne
  have hsymm : Std.Symm fun b c : Block => ∀ x, b.covers x = true → c.covers x = false :=
    ⟨fun b c hbc x hcx => by
      by_contra hbx
      simp [hbc x (by simpa using hbx)] at hcx⟩
  have hfalse := h.apart.forall hb hc hne x hbx
  simp [hfalse] at hcx

theorem Tiled.length_le (h : Tiled n h') : h'.free.length + h'.used.length ≤ n := by
  have hsub : (h'.free ++ h'.used).map Block.index ⊆ List.range n := fun i hi => by
    obtain ⟨b, hb, rfl⟩ := List.mem_map.mp hi
    have hpos := h.positive b hb
    have hinside := h.inside hb
    exact List.mem_range.mpr (by omega)
  have hlen := (h.nodup_index.subperm hsub).length_le
  simpa using hlen

/-- Some blocks give place to others that cover the same bytes. -/
theorem Tiled.exchange (h : Tiled n h') {h'' : Heaps} (old new rest : List Block)
    (hold : h'.free ++ h'.used ~ old ++ rest) (hnew : h''.free ++ h''.used ~ new ++ rest)
    (hcover : ∀ x, new.countP (Block.covers x) = old.countP (Block.covers x))
    (hpositive : ∀ b ∈ new, 0 < b.size) (hfree : h''.free.Pairwise fun a b => a.size ≤ b.size)
    (hused : h''.used.Pairwise fun a b => a.size ≤ b.size) : Tiled n h'' where
  positive := fun b hb => by
    obtain hb | hb := List.mem_append.mp (hnew.mem_iff.mp hb)
    · exact hpositive b hb
    · exact h.positive b (hold.mem_iff.mpr (List.mem_append_right _ hb))
  cover := fun x => by
    rw [← h.cover x, hold.countP_eq, hnew.countP_eq, List.countP_append, List.countP_append,
      hcover x]
  free := hfree
  used := hused

theorem tiled_initial (hn : 1 ≤ n) : Tiled n ⟨[⟨0, n⟩], []⟩ where
  positive := by
    simp
    omega
  cover := by simp [Block.covers, List.countP_cons]
  free := List.pairwise_singleton _ _
  used := .nil

theorem pairwise_erase (hl : (pre ++ b :: post).Pairwise fun a b => a.size ≤ b.size) :
    (pre ++ post).Pairwise fun a b => a.size ≤ b.size :=
  hl.sublist ((List.sublist_cons_self b post).append_left pre)

theorem Tiled.take (h : Tiled n h') {size : Nat} (hsize : 1 ≤ size) :
    Tiled n (h'.take size).2 := by
  obtain ⟨pre, b, post, hfree, -, hb, hfind, herase⟩ | ⟨-, hfind⟩ :=
    first_match h'.free fun b => decide (size ≤ b.size)
  · have hle : size ≤ b.size := of_decide_eq_true hb
    have hold : h'.free ++ h'.used ~ [b] ++ (pre ++ post ++ h'.used) := by
      rw [hfree]
      exact (List.perm_middle.append_right _)
    have hfreeSorted := pairwise_erase (hfree ▸ h.free)
    by_cases heq : b.size = size
    · simp only [Heaps.take, hfind, herase, if_pos heq]
      refine h.exchange _ _ _ hold ?_ (fun _ => rfl) (by simp; omega) hfreeSorted
        (push_pairwise h.used)
      exact ((push_perm b h'.used).append_left _).trans List.perm_middle
    · simp only [Heaps.take, hfind, herase, if_neg heq]
      refine h.exchange _ [⟨b.index + size, b.size - size⟩, ⟨b.index, size⟩] _ hold
        ?_ (fun x => ?_) (by simp; omega) (push_pairwise hfreeSorted) (push_pairwise h.used)
      · refine ((push_perm _ _).append (push_perm _ _)).trans ?_
        exact (List.perm_middle.cons _)
      · simp only [List.countP_cons, List.countP_nil, Block.covers, decide_eq_true_eq]
        split <;> split <;> split <;> omega
  · simp only [Heaps.take, hfind]
    exact h

theorem Tiled.release (h : Tiled n h') (ptr : Nat) : Tiled n (h'.release ptr) := by
  obtain ⟨pre, b, post, hused, -, -, hfind, herase⟩ | ⟨-, hfind⟩ :=
    first_match h'.used fun b => decide (b.index = ptr)
  · have hpos := h.positive b (by simp [hused])
    have husedSorted := pairwise_erase (hused ▸ h.used)
    simp only [Heaps.release, hfind, herase]
    obtain ⟨fpre, f, fpost, hfree, -, hf, hffind, hferase⟩ | ⟨-, hffind⟩ :=
      first_match h'.free fun f => decide (f.index + f.size = b.index)
    · have hf : f.index + f.size = b.index := of_decide_eq_true hf
      simp only [Heaps.merge, hffind, hferase]
      refine h.exchange [f, b] [⟨f.index, f.size + b.size⟩]
        ((fpre ++ fpost) ++ (pre ++ post)) ?_ ?_ (fun x => ?_) (by simp; omega)
        (push_pairwise (pairwise_erase (hfree ▸ h.free))) husedSorted
      · rw [hfree, hused]
        refine (List.perm_middle.append List.perm_middle).trans ?_
        exact (List.perm_middle.cons _)
      · exact (push_perm _ _).append_right _
      · simp only [List.countP_cons, List.countP_nil, Block.covers, decide_eq_true_eq]
        split <;> split <;> split <;> omega
    · simp only [Heaps.merge, hffind]
      refine h.exchange [b] [b] (h'.free ++ (pre ++ post)) ?_ ?_
        (fun _ => rfl) (by simpa using hpos) (push_pairwise h.free) husedSorted
      · rw [hused]
        exact (List.perm_middle.append_left _).trans List.perm_middle
      · exact (push_perm _ _).append_right _
  · simp only [Heaps.release, hfind]
    exact h

/-- Before the first call of `emalloc` there are no blocks. -/
def Heaps.Ready (n : Nat) (h : Heaps) : Prop := h = ⟨[], []⟩ ∨ Tiled n h

theorem Heaps.Ready.initial (hn : 1 ≤ n) (h : h'.Ready n) : Tiled n (h'.initial n) := by
  obtain rfl | h := h
  · exact tiled_initial hn
  · have hne : ¬ (h'.free = [] ∧ h'.used = []) := fun ⟨hfree, hused⟩ => by
      have hcover := h.cover 0
      rw [if_pos (by omega)] at hcover
      simp [hfree, hused] at hcover
    rw [Heaps.initial, if_neg hne]
    exact h

theorem Heaps.Ready.emalloc (hn : 1 ≤ n) (h : h'.Ready n) (size : Nat) :
    Tiled n (h'.emalloc n size).2 := by
  unfold Heaps.emalloc
  split
  · exact h.initial hn
  · exact (h.initial hn).take (by omega)

theorem Heaps.Ready.efree (h : h'.Ready n) (ptr : Option Nat) : (h'.efree ptr).Ready n := by
  cases ptr with
  | none => exact h
  | some ptr =>
    obtain rfl | h := h
    · exact Or.inl rfl
    · exact Or.inr (h.release _)

end
end WylesLibs.Memory
