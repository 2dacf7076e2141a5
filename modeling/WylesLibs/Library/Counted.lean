import WylesLibs.Library.Outcome

/-! Blocks that count the handles to them: a copy of a handle counts up, its end counts down, and
at zero the block is released. Independent of any particular program. -/
namespace WylesLibs.Library
variable {β : Type}

/-- A block and the count kept in it. The count is not taken to wrap: a block would need as many
handles as a machine word has values. -/
structure Counted (β : Type) where
  value : β
  count : Nat

/-- `block i` is `none` where nothing has been allocated yet and where the block was released. -/
structure CountedHeap (β : Type) where
  block : Nat → Option (Counted β)
  allocated : Nat

namespace CountedHeap
variable {h : CountedHeap β} {held : List (Nat × β)} {i : Nat} {v : β}

def empty : CountedHeap β := ⟨fun _ => none, 0⟩

def set (h : CountedHeap β) (i : Nat) (b : Option (Counted β)) : CountedHeap β :=
  { h with block := Function.update h.block i b }

def value (h : CountedHeap β) (i : Nat) : Option β := (h.block i).map Counted.value

/-- A block with one handle to it. -/
def make (v : β) : Prog (CountedHeap β) Nat := fun h =>
  .ok (h.allocated, ⟨Function.update h.block h.allocated (some ⟨v, 1⟩), h.allocated + 1⟩)

/-- Whatever is done through a handle to a released block is undefined. -/
def touch (i : Nat) (f : Counted β → Option (Counted β)) : Prog (CountedHeap β) Unit := fun h =>
  match h.block i with
  | none => .undef
  | some b => .ok ((), h.set i (f b))

def copy (i : Nat) : Prog (CountedHeap β) Unit :=
  touch i fun b => some { b with count := b.count + 1 }

def destroy (i : Nat) : Prog (CountedHeap β) Unit :=
  touch i fun b => if b.count = 1 then none else some { b with count := b.count - 1 }

def edit (i : Nat) (f : β → β) : Prog (CountedHeap β) Unit :=
  touch i fun b => some { b with value := f b.value }

def view (i : Nat) : Prog (CountedHeap β) β := fun h =>
  match h.block i with
  | none => .undef
  | some b => .ok (b.value, h)

/-! What is held: handles with what their blocks hold. -/

def handles (held : List (Nat × β)) : List Nat := held.map Prod.fst

/-- Every block held is there with what it is held to hold, and counts at least the handles held.
It may count more, where a handle was overwritten and not destroyed. -/
structure Owns (h : CountedHeap β) (held : List (Nat × β)) : Prop where
  live : ∀ p ∈ held, ∃ b, h.block p.1 = some b ∧ b.value = p.2 ∧
    (handles held).count p.1 ≤ b.count
  fresh : ∀ i, h.allocated ≤ i → h.block i = none

namespace Owns

theorem empty : Owns (empty : CountedHeap β) [] where
  live := by simp
  fresh _ _ := rfl

theorem value (ho : Owns h held) {p : Nat × β} (hp : p ∈ held) : h.value p.1 = some p.2 := by
  obtain ⟨b, hb, hv, -⟩ := ho.live p hp
  simp [CountedHeap.value, hb, hv]

theorem perm {held' : List (Nat × β)} (ho : Owns h held) (hperm : held.Perm held') :
    Owns h held' where
  live p hp := by
    obtain ⟨b, hb, hv, hc⟩ := ho.live p (hperm.mem_iff.mpr hp)
    have hcount : (handles held').count p.1 = (handles held).count p.1 :=
      ((hperm.map Prod.fst).count_eq p.1).symm
    exact ⟨b, hb, hv, hcount ▸ hc⟩
  fresh := ho.fresh

/-- A handle that is overwritten leaves its block counting one handle too many. -/
theorem forget {p : Nat × β} (ho : Owns h (p :: held)) : Owns h held where
  live q hq := by
    obtain ⟨b, hb, hv, hc⟩ := ho.live q (List.mem_cons_of_mem p hq)
    have hle : (handles held).count q.1 ≤ (handles (p :: held)).count q.1 :=
      List.count_le_count_cons
    exact ⟨b, hb, hv, hle.trans hc⟩
  fresh := ho.fresh

theorem lt_allocated (ho : Owns h held) {p : Nat × β} (hp : p ∈ held) : p.1 < h.allocated := by
  obtain ⟨b, hb, -⟩ := ho.live p hp
  by_contra hle
  rw [ho.fresh p.1 (Nat.not_lt.mp hle)] at hb
  cases hb

/-- No block held has the handle that the next allocation gives out. -/
theorem allocated_not_mem (ho : Owns h held) : h.allocated ∉ handles held := by
  intro hmem
  obtain ⟨p, hp, heq⟩ := List.mem_map.mp hmem
  have := ho.lt_allocated hp
  omega

theorem make (ho : Owns h held) (v : β) :
    ∃ h', make v h = .ok (h.allocated, h') ∧ Owns h' ((h.allocated, v) :: held) := by
  have hnew := ho.allocated_not_mem
  refine ⟨_, rfl, ?_, ?_⟩
  · intro p hp
    cases hp with
    | head =>
      refine ⟨⟨v, 1⟩, by simp, rfl, ?_⟩
      have hzero : (held.map Prod.fst).count h.allocated = 0 := List.count_eq_zero.mpr hnew
      simp [handles, hzero]
    | tail _ hp =>
      obtain ⟨b, hb, hv, hc⟩ := ho.live p hp
      have hne : p.1 ≠ h.allocated := (ho.lt_allocated hp).ne
      refine ⟨b, by simpa [Function.update_of_ne hne] using hb, hv, ?_⟩
      simpa [handles, List.count_cons_of_ne hne.symm] using hc
  · intro i hi
    have hne : i ≠ h.allocated := by
      simp only at hi
      omega
    simp only [Function.update_of_ne hne]
    exact ho.fresh i (by simp only at hi; omega)

theorem view (ho : Owns h held) (hp : (i, v) ∈ held) : view i h = .ok (v, h) := by
  obtain ⟨b, hb, hv, -⟩ := ho.live (i, v) hp
  simp only at hb hv
  simp [CountedHeap.view, hb, hv]

theorem copy (ho : Owns h held) (hp : (i, v) ∈ held) :
    ∃ h', copy i h = .ok ((), h') ∧ Owns h' ((i, v) :: held) := by
  obtain ⟨b, hb, hv, hc⟩ := ho.live (i, v) hp
  simp only at hb hv hc
  refine ⟨h.set i (some { b with count := b.count + 1 }), by simp [CountedHeap.copy, touch, hb],
    ?_, ?_⟩
  · intro p hp'
    by_cases hpi : p.1 = i
    · refine ⟨{ b with count := b.count + 1 }, by simp [CountedHeap.set, hpi], ?_, ?_⟩
      · obtain rfl | hmem := List.mem_cons.mp hp'
        · exact hv
        · obtain ⟨b', hb', hv', -⟩ := ho.live p hmem
          rw [hpi, hb] at hb'
          cases hb'
          exact hv'
      · simpa [handles, hpi] using hc
    · obtain rfl | hmem := List.mem_cons.mp hp'
      · exact absurd rfl hpi
      · obtain ⟨b', hb', hv', hc'⟩ := ho.live p hmem
        refine ⟨b', by simpa [CountedHeap.set, Function.update_of_ne hpi] using hb', hv', ?_⟩
        simpa [handles, List.count_cons_of_ne (Ne.symm hpi)] using hc'
  · intro j hj
    have hne : j ≠ i := by
      rintro rfl
      rw [ho.fresh j hj] at hb
      cases hb
    simpa [CountedHeap.set, Function.update_of_ne hne] using ho.fresh j hj

/-- The block stays as long as another handle to it is held. -/
theorem destroy (ho : Owns h ((i, v) :: held)) :
    ∃ h', destroy i h = .ok ((), h') ∧ Owns h' held := by
  obtain ⟨b, hb, hv, hc⟩ := ho.live (i, v) List.mem_cons_self
  simp only [handles, List.map_cons, List.count_cons_self] at hb hv hc
  refine ⟨_, by simp only [CountedHeap.destroy, touch, hb]; rfl, ?_, ?_⟩
  · intro p hp
    obtain ⟨b', hb', hv', hc'⟩ := ho.live p (List.mem_cons_of_mem _ hp)
    by_cases hpi : p.1 = i
    · rw [hpi, hb] at hb'
      cases hb'
      have hpos : 0 < (held.map Prod.fst).count i :=
        List.count_pos_iff.mpr (hpi ▸ List.mem_map_of_mem hp)
      refine ⟨{ b with count := b.count - 1 }, ?_, hv', ?_⟩
      · have hne : b.count ≠ 1 := by omega
        simp [CountedHeap.set, hpi, hne]
      · simp only [handles, hpi]
        omega
    · refine ⟨b', by simpa [CountedHeap.set, Function.update_of_ne hpi] using hb', hv', ?_⟩
      simpa [handles, List.count_cons_of_ne (Ne.symm hpi)] using hc'
  · intro j hj
    have hne : j ≠ i := by
      rintro rfl
      rw [ho.fresh j hj] at hb
      cases hb
    simpa [CountedHeap.set, Function.update_of_ne hne] using ho.fresh j hj

/-- What is held once `f` has been applied to the contents of block `i`. -/
def edited (i : Nat) (f : β → β) (held : List (Nat × β)) : List (Nat × β) :=
  held.map fun p => if p.1 = i then (p.1, f p.2) else p

theorem edited_cons (f : β → β) (p : Nat × β) (held : List (Nat × β)) :
    edited i f (p :: held) = (p.1, if p.1 = i then f p.2 else p.2) :: edited i f held := by
  simp only [edited, List.map_cons]
  split <;> rfl

theorem handles_edited (f : β → β) : handles (edited i f held) = handles held := by
  simp only [handles, edited, List.map_map]
  apply List.map_congr_left
  intro p _
  simp only [Function.comp_apply]
  split <;> rfl

theorem edited_of_not_mem (f : β → β) (hi : i ∉ handles held) : edited i f held = held := by
  have hid : ∀ p ∈ held, (if p.1 = i then (p.1, f p.2) else p) = p := by
    intro p hp
    have hne : p.1 ≠ i := by
      rintro rfl
      exact hi (List.mem_map_of_mem hp)
    rw [if_neg hne]
  simpa [edited] using List.map_congr_left hid

theorem edit (ho : Owns h held) (hi : i ∈ handles held) (f : β → β) :
    ∃ h', edit i f h = .ok ((), h') ∧ Owns h' (edited i f held) := by
  obtain ⟨⟨j, v⟩, hp, rfl⟩ := List.mem_map.mp hi
  obtain ⟨b, hb, hv, hc⟩ := ho.live (j, v) hp
  simp only at hb hv hc
  refine ⟨h.set j (some { b with value := f b.value }), by simp [CountedHeap.edit, touch, hb],
    ?_, ?_⟩
  · intro p hp'
    rw [handles_edited]
    obtain ⟨q, hq, rfl⟩ := List.mem_map.mp hp'
    obtain ⟨b', hb', hv', hc'⟩ := ho.live q hq
    by_cases hqj : q.1 = j
    · rw [if_pos hqj]
      rw [hqj, hb] at hb'
      cases hb'
      refine ⟨{ b with value := f b.value }, by simp [CountedHeap.set, hqj], by simp [hv'], ?_⟩
      simpa using hc'
    · rw [if_neg hqj]
      exact ⟨b', by simpa [CountedHeap.set, Function.update_of_ne hqj] using hb', hv', hc'⟩
  · intro k hk
    have hne : k ≠ j := by
      rintro rfl
      rw [ho.fresh k hk] at hb
      cases hb
    simpa [CountedHeap.set, Function.update_of_ne hne] using ho.fresh k hk

/-- Contents of a block to which one handle is held. -/
theorem edit_own (ho : Owns h ((i, v) :: held)) (hi : i ∉ handles held) (f : β → β) :
    ∃ h', CountedHeap.edit i f h = .ok ((), h') ∧ Owns h' ((i, f v) :: held) := by
  obtain ⟨h', hedit, ho'⟩ := ho.edit (i := i) (by simp [handles]) f
  refine ⟨h', hedit, ?_⟩
  have heq : edited i f ((i, v) :: held) = (i, f v) :: edited i f held := by
    simp [edited]
  rw [heq, edited_of_not_mem f hi] at ho'
  exact ho'

end Owns
end CountedHeap
end WylesLibs.Library
