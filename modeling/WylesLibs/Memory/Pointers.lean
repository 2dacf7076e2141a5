import WylesLibs.Library.Outcome

/-! `ESharedPtr` and `EWeakPtr`: handles that share a control block, and control blocks that share
a counter. -/
namespace WylesLibs.Memory.Pointers
open Library

/-- `EPointerControl`, with the cell that `ctrl_container` leads through: the two are made and
deleted together. A pointee goes by the number of the counter that was made with it. -/
structure EPointerControl where
  ptr : Option Nat
  eInstanceCount : Nat

/-- `strong` and `weak` have an entry for every live handle, namely its control block. `made` and
`deleted` are the pointees given to a constructor and those deleted so far. -/
structure State where
  controls : Nat → EPointerControl
  allocated : Nat
  freed : List Nat
  counts : Nat → Nat
  strong : List Nat
  weak : List Nat
  made : List Nat
  deleted : List Nat

def State.start : State where
  controls _ := ⟨none, 0⟩
  allocated := 0
  freed := []
  counts _ := 0
  strong := []
  weak := []
  made := []
  deleted := []

namespace State

/-- The count is a `size_t`, taken not to wrap: that would need as many copies as it has values. -/
def increment (s : State) (k : Nat) : State :=
  { s with counts := Function.update s.counts k (s.counts k + 1) }

/-- A handle with a control block of its own. -/
def create (s : State) (ctrl : EPointerControl) : State :=
  { s with
    controls := Function.update s.controls s.allocated ctrl
    allocated := s.allocated + 1
    strong := s.allocated :: s.strong }

/-- `new EPointerControl<T>(ptr)`, with a new counter at one. -/
def construct (s : State) (ptr : Option Nat) : State :=
  { s.create ⟨ptr, s.allocated⟩ with counts := Function.update s.counts s.allocated 1 }

/-- `delete *ctrl_container; delete ctrl_container`: the pointee goes with the control block. -/
def delete (s : State) (c : Nat) : Outcome State :=
  match (s.controls c).ptr with
  | none => .ok { s with freed := c :: s.freed }
  | some p =>
    if p ∈ s.deleted then .undef
    else .ok { s with freed := c :: s.freed, deleted := p :: s.deleted }

end State

/-- A handle goes by its control block. Where a source may be modified, the two templates take it
before the copies do: `convert` and `convertAssign` stand for them, for `cast` too. -/
inductive Act where
  | construct
  | constructFrom
  | copy (x : Nat)
  | copyAssign (target x : Nat)
  | convert (x : Nat)
  | convertAssign (target x : Nat)
  | toWeak (x : Nat)
  | lock (w : Nat)
  | destroy (x : Nat)

/-- Whatever reads a control block that is freed is undefined. -/
def step (s : State) : Act → Outcome State
  | .construct => .ok (s.construct none)
  | .constructFrom =>
    .ok { s.construct (some s.allocated) with made := s.allocated :: s.made }
  | .copy x =>
    if x ∈ s.freed then .undef
    else .ok ({ s with strong := x :: s.strong }.increment (s.controls x).eInstanceCount)
  | .copyAssign target x =>
    if x ∈ s.freed then .undef
    else .ok ({ s with strong := x :: s.strong.erase target }.increment
      (s.controls x).eInstanceCount)
  | .convert x =>
    if x ∈ s.freed then .undef
    else .ok ((s.create (s.controls x)).increment (s.controls x).eInstanceCount)
  | .convertAssign target x =>
    if target ∈ s.freed ∨ x ∈ s.freed then .undef
    else .ok ({ s with controls := Function.update s.controls target (s.controls x) }.increment
      (s.controls x).eInstanceCount)
  | .toWeak x => .ok { s with weak := x :: s.weak }
  | .lock w =>
    if w ∈ s.freed then .undef
    else .ok ({ s with strong := w :: s.strong }.increment (s.controls w).eInstanceCount)
  | .destroy x =>
    if x ∈ s.freed then .undef
    else
      let k := (s.controls x).eInstanceCount
      let n := if s.counts k = 0 then 2 ^ 64 - 1 else s.counts k - 1
      let s := { s with counts := Function.update s.counts k n, strong := s.strong.erase x }
      if n = 0 then s.delete x else .ok s

/-- The handles that a call names are there. -/
def Possible (s : State) : Act → Prop
  | .construct | .constructFrom => True
  | .copy x | .convert x | .toWeak x | .destroy x => x ∈ s.strong
  | .copyAssign target x | .convertAssign target x => target ∈ s.strong ∧ x ∈ s.strong
  | .lock w => w ∈ s.weak

instance (s : State) (act : Act) : Decidable (Possible s act) :=
  match act with
  | .construct | .constructFrom => inferInstanceAs (Decidable True)
  | .copy x | .convert x | .toWeak x | .destroy x => inferInstanceAs (Decidable (x ∈ s.strong))
  | .copyAssign target x | .convertAssign target x =>
    inferInstanceAs (Decidable (target ∈ s.strong ∧ x ∈ s.strong))
  | .lock w => inferInstanceAs (Decidable (w ∈ s.weak))

/-- Live strong handles counted by the counter `k`, which are those to the pointee `k`. -/
def State.handlesTo (s : State) (k : Nat) : Nat :=
  s.strong.countP fun c => (s.controls c).eInstanceCount = k

/-- What the weak handle `w` is to is deleted. -/
def State.Gone (s : State) (w : Nat) : Prop := ∃ p, (s.controls w).ptr = some p ∧ p ∈ s.deleted

/-- What `lock` gives to a pointee that is deleted is a null handle. -/
def LockRight (s : State) (w : Nat) : Prop :=
  s.Gone w → ∃ s' c, step s (.lock w) = .ok s' ∧ s'.strong = c :: s.strong ∧
    (s'.controls c).ptr = none

/-- The count of every pointee is that of its strong handles; it is deleted exactly when there are
none, and once. -/
structure Counted (s : State) : Prop where
  count : ∀ p ∈ s.made, s.counts p = s.handlesTo p
  once : s.deleted.Nodup
  deleted : ∀ p ∈ s.made, p ∈ s.deleted ↔ s.handlesTo p = 0

/-- Any history of the calls. -/
inductive History : State → Prop
  | start : History .start
  | step {s s' : State} {act : Act} (h : History s) (hp : Possible s act)
      (hs : step s act = .ok s') : History s'

/-- An assignment is to a handle without a pointee, which is alone on its control block where that
is overwritten; `lock` is called while there is something left to lock. -/
def Meets (s : State) : Act → Prop
  | .copyAssign target _ => (s.controls target).ptr = none
  | .convertAssign target x =>
    (s.controls target).ptr = none ∧ (target = x ∨ s.strong.count target = 1)
  | .lock w => w ∉ s.freed ∧ ¬ s.Gone w
  | _ => True

/-- A history whose calls all meet the condition. -/
inductive Run : State → Prop
  | start : Run .start
  | step {s s' : State} {act : Act} (h : Run s) (hp : Possible s act) (hm : Meets s act)
      (hs : step s act = .ok s') : Run s'

/-! The counts, apart from the control blocks they are read through. -/

/-- Counters with a pointee count exactly, the others at least, what is held. -/
structure Balanced (made deleted : List Nat) (counts held : Nat → Nat) : Prop where
  count : ∀ p ∈ made, counts p = held p
  bound : ∀ k, held k ≤ counts k
  once : deleted.Nodup
  deleted : ∀ p, p ∈ deleted ↔ p ∈ made ∧ held p = 0

namespace Balanced
variable {made deleted : List Nat} {counts counts' held held' : Nat → Nat} {k : Nat}

/-- One handle more, of a pointee that still has one. -/
theorem gain (h : Balanced made deleted counts held) (hk : k ∈ made → 0 < held k)
    (hheld : ∀ j, held' j = held j + if j = k then 1 else 0) :
    Balanced made deleted (Function.update counts k (counts k + 1)) held' where
  count p hp := by
    rw [hheld]
    by_cases hpk : p = k
    · subst hpk
      simp [h.count p hp]
    · simp [hpk, h.count p hp]
  bound j := by
    rw [hheld]
    have := h.bound j
    by_cases hjk : j = k
    · subst hjk
      simpa using this
    · simpa [hjk] using this
  deleted p := by
    rw [h.deleted, hheld]
    by_cases hpk : p = k
    · subst hpk
      constructor
      · rintro ⟨hp, hz⟩
        have := hk hp
        omega
      · rintro ⟨-, hz⟩
        simp at hz
    · simp [hpk]
  once := h.once

/-- Counters without a pointee may count what is no longer held. -/
theorem mono (h : Balanced made deleted counts held) (hcounts : ∀ k, counts k ≤ counts' k)
    (hheld : ∀ k, held' k ≤ held k)
    (hmade : ∀ p ∈ made, counts' p = counts p ∧ held' p = held p) :
    Balanced made deleted counts' held' where
  count p hp := by
    rw [(hmade p hp).1, (hmade p hp).2]
    exact h.count p hp
  bound j := (hheld j).trans ((h.bound j).trans (hcounts j))
  deleted p := by
    rw [h.deleted]
    constructor
    · rintro ⟨hp, hz⟩
      exact ⟨hp, (hmade p hp).2.trans hz⟩
    · rintro ⟨hp, hz⟩
      exact ⟨hp, (hmade p hp).2.symm.trans hz⟩
  once := h.once

/-- One handle less, of a counter that stays above zero. -/
theorem lose (h : Balanced made deleted counts held) (hpos : counts k ≠ 1) (hk : 0 < held k)
    (hheld : ∀ j, held' j + (if j = k then 1 else 0) = held j) :
    Balanced made deleted (Function.update counts k (counts k - 1)) held' where
  count p hp := by
    have hp' := hheld p
    have hcount := h.count p hp
    by_cases hpk : p = k
    · subst hpk
      simp only [if_true] at hp'
      simp only [Function.update_self]
      omega
    · simp only [if_neg hpk] at hp'
      simp only [Function.update_of_ne hpk]
      omega
  bound j := by
    have hj := hheld j
    have := h.bound j
    by_cases hjk : j = k
    · subst hjk
      simp only [if_true] at hj
      simp only [Function.update_self]
      omega
    · simp only [if_neg hjk] at hj
      simp only [Function.update_of_ne hjk]
      omega
  deleted p := by
    have hp' := hheld p
    rw [h.deleted]
    by_cases hpk : p = k
    · subst hpk
      have hb := h.bound p
      simp only [if_true] at hp'
      constructor
      · rintro ⟨-, hz⟩
        omega
      · rintro ⟨hp, hz⟩
        have := h.count p hp
        omega
    · simp only [if_neg hpk] at hp'
      constructor
      · rintro ⟨hp, hz⟩
        exact ⟨hp, by omega⟩
      · rintro ⟨hp, hz⟩
        exact ⟨hp, by omega⟩
  once := h.once

/-- The last handle: its pointee, if there is one, is deleted. -/
theorem last (h : Balanced made deleted counts held) (hone : counts k = 1) (hk : 0 < held k)
    (hheld : ∀ j, held' j + (if j = k then 1 else 0) = held j) :
    (k ∈ made → k ∉ deleted ∧ Balanced made (k :: deleted) (Function.update counts k 0) held') ∧
      (k ∉ made → Balanced made deleted (Function.update counts k 0) held') := by
  have hkz : held' k = 0 := by
    have hb := h.bound k
    have hkk := hheld k
    simp only [if_true] at hkk
    omega
  have hother : ∀ j, j ≠ k → held' j = held j := by
    intro j hj
    have := hheld j
    simpa [hj] using this
  have hcount : ∀ p ∈ made, Function.update counts k 0 p = held' p := by
    intro p hp
    by_cases hpk : p = k
    · subst hpk
      simp [hkz]
    · rw [Function.update_of_ne hpk, hother p hpk]
      exact h.count p hp
  have hbound : ∀ j, held' j ≤ Function.update counts k 0 j := by
    intro j
    by_cases hjk : j = k
    · subst hjk
      simp [hkz]
    · rw [Function.update_of_ne hjk, hother j hjk]
      exact h.bound j
  constructor
  · intro hmade
    have hnot : k ∉ deleted := by
      intro hdel
      have := ((h.deleted k).mp hdel).2
      omega
    refine ⟨hnot, hcount, hbound, List.nodup_cons.mpr ⟨hnot, h.once⟩, ?_⟩
    intro p
    by_cases hpk : p = k
    · subst hpk
      simp [hmade, hkz]
    · rw [List.mem_cons, h.deleted, hother p hpk]
      simp [hpk]
  · intro hmade
    refine ⟨hcount, hbound, h.once, ?_⟩
    intro p
    rw [h.deleted]
    by_cases hpk : p = k
    · subst hpk
      simp [hmade]
    · rw [hother p hpk]

/-- A new counter at one. -/
theorem make (h : Balanced made deleted counts held) (hnew : held k = 0) (hk : k ∉ made)
    (hheld : ∀ j, held' j = held j + if j = k then 1 else 0) :
    Balanced made deleted (Function.update counts k 1) held' where
  count p hp := by
    have hpk : p ≠ k := ne_of_mem_of_not_mem hp hk
    simpa [hheld, hpk] using h.count p hp
  bound j := by
    rw [hheld]
    by_cases hjk : j = k
    · subst hjk
      simp [hnew]
    · simpa [hjk] using h.bound j
  once := h.once
  deleted p := by
    rw [h.deleted, hheld]
    constructor
    · rintro ⟨hp, hz⟩
      have hpk : p ≠ k := ne_of_mem_of_not_mem hp hk
      exact ⟨hp, by simp [hz, hpk]⟩
    · rintro ⟨hp, hz⟩
      exact ⟨hp, by omega⟩

/-- A counter at one becomes that of a pointee. -/
theorem own (h : Balanced made deleted counts held) (hk : k ∉ made) (hcount : counts k = 1)
    (hheld : held k = 1) : Balanced (k :: made) deleted counts held where
  count p hp := by
    cases hp with
    | head => rw [hcount, hheld]
    | tail _ hp => exact h.count p hp
  bound := h.bound
  once := h.once
  deleted p := by
    rw [h.deleted]
    by_cases hpk : p = k
    · subst hpk
      simp [hk, hheld]
    · simp [hpk]

end Balanced

/-! The control blocks. -/

/-- Every control block names a counter, and the counter's pointee where it has one; those that
handles lead to are not freed. -/
structure Shaped (s : State) : Prop where
  live : ∀ c ∈ s.strong, c < s.allocated ∧ c ∉ s.freed
  weak : ∀ w ∈ s.weak, w < s.allocated
  counter : ∀ c < s.allocated, (s.controls c).eInstanceCount < s.allocated
  ptr : ∀ c < s.allocated, (s.controls c).ptr =
    if (s.controls c).eInstanceCount ∈ s.made then some (s.controls c).eInstanceCount else none
  freed : ∀ c ∈ s.freed, c < s.allocated
  made : ∀ p ∈ s.made, p < s.allocated

structure Inv (s : State) : Prop where
  shaped : Shaped s
  balanced : Balanced s.made s.deleted s.counts s.handlesTo

section
variable {s : State} {x t k : Nat}

theorem handlesTo_pos (hx : x ∈ s.strong) : 0 < s.handlesTo (s.controls x).eInstanceCount := by
  apply List.countP_pos_iff.mpr
  exact ⟨x, hx, by simp⟩

theorem handlesTo_cons (s : State) (strong : List Nat) (x j : Nat) :
    State.handlesTo { s with strong := x :: strong } j =
      State.handlesTo { s with strong := strong } j +
        if j = (s.controls x).eInstanceCount then 1 else 0 := by
  simp [State.handlesTo, List.countP_cons, eq_comm]

theorem handlesTo_erase (hx : x ∈ s.strong) (j : Nat) :
    State.handlesTo { s with strong := s.strong.erase x } j +
      (if j = (s.controls x).eInstanceCount then 1 else 0) = s.handlesTo j := by
  rw [← handlesTo_cons s (s.strong.erase x) x j]
  exact (List.perm_cons_erase hx).symm.countP_eq _

namespace Shaped

theorem ptr_eq_none (h : Shaped s) (hx : x ∈ s.strong) :
    (s.controls x).ptr = none ↔ (s.controls x).eInstanceCount ∉ s.made := by
  rw [h.ptr x (h.live x hx).1]
  split <;> simp_all

theorem handlesTo_create (h : Shaped s) (ctrl : EPointerControl) (j : Nat) :
    (s.create ctrl).handlesTo j = s.handlesTo j + if j = ctrl.eInstanceCount then 1 else 0 := by
  have hold : s.strong.countP (fun c =>
      (Function.update s.controls s.allocated ctrl c).eInstanceCount = j) = s.handlesTo j := by
    apply List.countP_congr
    intro c hc
    have hne : c ≠ s.allocated := (h.live c hc).1.ne
    simp [Function.update_of_ne hne]
  simp only [State.handlesTo, State.create, List.countP_cons, Function.update_self]
  rw [← State.handlesTo, ← hold]
  simp [eq_comm]

theorem handlesTo_allocated (h : Shaped s) : s.handlesTo s.allocated = 0 := by
  apply List.countP_eq_zero.mpr
  intro c hc
  have := h.counter c (h.live c hc).1
  simp only [decide_eq_true_eq]
  omega

theorem allocated_not_made (h : Shaped s) : s.allocated ∉ s.made := by
  intro hmem
  exact absurd (h.made _ hmem) (lt_irrefl _)

theorem createLive (h : Shaped s) (ctrl : EPointerControl) :
    ∀ c ∈ (s.create ctrl).strong, c < s.allocated + 1 ∧ c ∉ s.freed := by
  intro c hc
  cases hc with
  | head => exact ⟨Nat.lt_succ_self _, fun hf => absurd (h.freed _ hf) (lt_irrefl _)⟩
  | tail _ hc => exact ⟨Nat.lt_succ_of_lt (h.live c hc).1, (h.live c hc).2⟩

theorem create (h : Shaped s) (ctrl : EPointerControl) (hk : ctrl.eInstanceCount ≤ s.allocated)
    (hptr : ctrl.ptr = if ctrl.eInstanceCount ∈ s.made then some ctrl.eInstanceCount else none) :
    Shaped (s.create ctrl) where
  live := h.createLive ctrl
  weak w hw := Nat.lt_succ_of_lt (h.weak w hw)
  counter c hc := by
    by_cases hca : c = s.allocated
    · subst hca
      simpa [State.create] using Nat.lt_succ_of_le hk
    · have hlt : c < s.allocated := by
        simp only [State.create] at hc
        omega
      simpa [State.create, Function.update_of_ne hca] using Nat.lt_succ_of_lt (h.counter c hlt)
  ptr c hc := by
    by_cases hca : c = s.allocated
    · subst hca
      simpa [State.create] using hptr
    · have hlt : c < s.allocated := by
        simp only [State.create] at hc
        omega
      simpa [State.create, Function.update_of_ne hca] using h.ptr c hlt
  freed c hc := Nat.lt_succ_of_lt (h.freed c hc)
  made p hp := Nat.lt_succ_of_lt (h.made p hp)

/-- Handles to blocks that are there, one more or one less. -/
theorem strong (h : Shaped s) (strong : List Nat)
    (hlive : ∀ c ∈ strong, c < s.allocated ∧ c ∉ s.freed) :
    Shaped { s with strong := strong } where
  live := hlive
  weak := h.weak
  counter := h.counter
  ptr := h.ptr
  freed := h.freed
  made := h.made

end Shaped

theorem inv_start : Inv .start where
  shaped := by constructor <;> simp [State.start]
  balanced := by constructor <;> simp [State.start, State.handlesTo]

namespace Inv

theorem construct (h : Inv s) : Inv (s.construct none) := by
  have hnew := h.shaped.allocated_not_made
  have hshaped := h.shaped.create ⟨none, s.allocated⟩ le_rfl (by simp [hnew])
  refine ⟨⟨hshaped.live, hshaped.weak, hshaped.counter, hshaped.ptr, hshaped.freed,
    hshaped.made⟩, ?_⟩
  exact h.balanced.make h.shaped.handlesTo_allocated hnew
    (h.shaped.handlesTo_create ⟨none, s.allocated⟩)

theorem constructFrom (h : Inv s) :
    Inv { s.construct (some s.allocated) with made := s.allocated :: s.made } := by
  have hnew := h.shaped.allocated_not_made
  have hheld := h.shaped.handlesTo_create ⟨some s.allocated, s.allocated⟩
  have hbalanced := (h.balanced.make h.shaped.handlesTo_allocated hnew hheld).own hnew (by simp)
    (by simp [hheld, h.shaped.handlesTo_allocated])
  have hcontrol : ∀ c, c < s.allocated + 1 → c ≠ s.allocated → c < s.allocated := by omega
  refine ⟨⟨?_, ?_, ?_, ?_, ?_, ?_⟩, hbalanced⟩
  · exact h.shaped.createLive ⟨some s.allocated, s.allocated⟩
  · exact fun w hw => Nat.lt_succ_of_lt (h.shaped.weak w hw)
  · intro c hc
    by_cases hca : c = s.allocated
    · subst hca
      simp [State.construct, State.create]
    · have := h.shaped.counter c (hcontrol c hc hca)
      simpa [State.construct, State.create, Function.update_of_ne hca] using Nat.lt_succ_of_lt this
  · intro c hc
    by_cases hca : c = s.allocated
    · subst hca
      simp [State.construct, State.create]
    · have hk := h.shaped.counter c (hcontrol c hc hca)
      have hptr := h.shaped.ptr c (hcontrol c hc hca)
      simpa [State.construct, State.create, Function.update_of_ne hca, hk.ne] using hptr
  · exact fun c hc => Nat.lt_succ_of_lt (h.shaped.freed c hc)
  · intro p hp
    cases hp with
    | head => exact Nat.lt_succ_self _
    | tail _ hp => exact Nat.lt_succ_of_lt (h.shaped.made p hp)

theorem gain (h : Inv s) (hx : x < s.allocated) (hf : x ∉ s.freed)
    (hpos : (s.controls x).eInstanceCount ∈ s.made → 0 < s.handlesTo (s.controls x).eInstanceCount) :
    Inv ({ s with strong := x :: s.strong }.increment (s.controls x).eInstanceCount) := by
  have hshaped := h.shaped.strong (x :: s.strong) (by
    intro c hc
    cases hc with
    | head => exact ⟨hx, hf⟩
    | tail _ hc => exact h.shaped.live c hc)
  refine ⟨⟨hshaped.live, hshaped.weak, hshaped.counter, hshaped.ptr, hshaped.freed,
    hshaped.made⟩, ?_⟩
  exact h.balanced.gain hpos (handlesTo_cons s s.strong x)

/-- A handle without a pointee is overwritten by one more to the block of `x`. -/
theorem assign (h : Inv s) (ht : t ∈ s.strong) (hx : x ∈ s.strong)
    (hnull : (s.controls t).ptr = none) :
    Inv ({ s with strong := x :: s.strong.erase t }.increment
      (s.controls x).eInstanceCount) := by
  have hgain := h.gain (h.shaped.live x hx).1 (h.shaped.live x hx).2 fun _ => handlesTo_pos hx
  have hnot := (h.shaped.ptr_eq_none ht).mp hnull
  have hsub : ∀ c ∈ x :: s.strong.erase t, c ∈ x :: s.strong := by
    intro c hc
    cases hc with
    | head => exact List.mem_cons_self
    | tail _ hc => exact List.mem_cons_of_mem _ (List.mem_of_mem_erase hc)
  have hshaped := hgain.shaped.strong (x :: s.strong.erase t)
    fun c hc => hgain.shaped.live c (hsub c hc)
  have hheld : ∀ j, State.handlesTo { s with strong := x :: s.strong.erase t } j +
      (if j = (s.controls t).eInstanceCount then 1 else 0) =
        State.handlesTo { s with strong := x :: s.strong } j := by
    intro j
    have herase := handlesTo_erase ht j
    have hcons : State.handlesTo { s with strong := x :: s.strong } j =
        s.handlesTo j + if j = (s.controls x).eInstanceCount then 1 else 0 :=
      handlesTo_cons s s.strong x j
    rw [hcons, handlesTo_cons]
    omega
  refine ⟨hshaped, ?_⟩
  apply hgain.balanced.mono (fun _ => le_rfl)
  · intro j
    have := hheld j
    exact (Nat.le_add_right _ _).trans this.le
  · intro p hp
    have hp' : p ≠ (s.controls t).eInstanceCount := ne_of_mem_of_not_mem hp hnot
    have := hheld p
    rw [if_neg hp'] at this
    exact ⟨rfl, this⟩

/-- The block of a handle without a pointee becomes one like that of `x`. -/
theorem become (h : Inv s) (ht : t ∈ s.strong) (hx : x ∈ s.strong)
    (hnull : (s.controls t).ptr = none) (hone : t = x ∨ s.strong.count t = 1) :
    Inv ({ s with controls := Function.update s.controls t (s.controls x) }.increment
      (s.controls x).eInstanceCount) := by
  obtain rfl | hone := hone
  · -- nothing is changed but the count, and no pointee is counted there
    have hnot := (h.shaped.ptr_eq_none ht).mp hnull
    rw [Function.update_eq_self]
    refine ⟨⟨h.shaped.live, h.shaped.weak, h.shaped.counter, h.shaped.ptr, h.shaped.freed,
      h.shaped.made⟩, ?_⟩
    apply h.balanced.mono _ (fun _ => le_rfl)
    · intro p hp
      have hne : p ≠ (s.controls t).eInstanceCount := ne_of_mem_of_not_mem hp hnot
      simp [State.increment, hne]
    · intro j
      by_cases hj : j = (s.controls t).eInstanceCount
      · subst hj
        simp [State.increment]
      · simp [State.increment, hj]
  · have hassign := h.assign ht hx hnull
    have hlt := (h.shaped.live x hx).1
    refine ⟨⟨h.shaped.live, h.shaped.weak, ?_, ?_, h.shaped.freed, h.shaped.made⟩, ?_⟩
    · intro c hc
      by_cases hct : c = t
      · subst hct
        simpa [State.increment] using h.shaped.counter x hlt
      · simpa [State.increment, Function.update_of_ne hct] using h.shaped.counter c hc
    · intro c hc
      by_cases hct : c = t
      · subst hct
        simpa [State.increment] using h.shaped.ptr x hlt
      · simpa [State.increment, Function.update_of_ne hct] using h.shaped.ptr c hc
    · have hsame : ∀ j, State.handlesTo
          { s with controls := Function.update s.controls t (s.controls x) } j =
            State.handlesTo { s with strong := x :: s.strong.erase t } j := by
        intro j
        have hgone : t ∉ s.strong.erase t := by
          apply List.count_eq_zero.mp
          simp [List.count_erase_self, hone]
        have hrest : (s.strong.erase t).countP (fun c =>
            (Function.update s.controls t (s.controls x) c).eInstanceCount = j) =
              (s.strong.erase t).countP fun c => (s.controls c).eInstanceCount = j := by
          apply List.countP_congr
          intro c hc
          have hct : c ≠ t := ne_of_mem_of_not_mem hc hgone
          simp [Function.update_of_ne hct]
        simp only [State.handlesTo]
        rw [(List.perm_cons_erase ht).countP_eq, List.countP_cons, List.countP_cons, hrest]
        simp
      exact hassign.balanced.mono (fun _ => le_rfl) (fun j => (hsame j).le)
        fun p _ => ⟨rfl, hsame p⟩

theorem destroy (h : Inv s) (hx : x ∈ s.strong) :
    ∃ s', step s (.destroy x) = .ok s' ∧ Inv s' := by
  obtain ⟨hlt, hf⟩ := h.shaped.live x hx
  have hpos := handlesTo_pos hx
  have hbound := h.balanced.bound (s.controls x).eInstanceCount
  have hheld := handlesTo_erase hx
  have hsub : ∀ c ∈ s.strong.erase x, c ∈ s.strong := fun c hc => List.mem_of_mem_erase hc
  have hcount : (if s.counts (s.controls x).eInstanceCount = 0 then 2 ^ 64 - 1
      else s.counts (s.controls x).eInstanceCount - 1) =
        s.counts (s.controls x).eInstanceCount - 1 := if_neg (by omega)
  simp only [Pointers.step, if_neg hf, hcount]
  by_cases hone : s.counts (s.controls x).eInstanceCount = 1
  · -- no handle is left that leads to the block
    obtain ⟨hlast, hlastNull⟩ := h.balanced.last hone hpos hheld
    have hzero : State.handlesTo { s with strong := s.strong.erase x }
        (s.controls x).eInstanceCount = 0 := by
      have := hheld (s.controls x).eInstanceCount
      simp only [if_true] at this
      omega
    have hgone : x ∉ s.strong.erase x := by
      intro hmem
      have := handlesTo_pos (s := { s with strong := s.strong.erase x }) hmem
      simp only at this
      omega
    have hlive : ∀ c ∈ s.strong.erase x, c < s.allocated ∧ c ∉ x :: s.freed := by
      intro c hc
      obtain ⟨hcl, hcf⟩ := h.shaped.live c (hsub c hc)
      have hne : c ≠ x := ne_of_mem_of_not_mem hc hgone
      exact ⟨hcl, by simp [hne, hcf]⟩
    have hfreed : ∀ c ∈ x :: s.freed, c < s.allocated := by
      intro c hc
      cases hc with
      | head => exact hlt
      | tail _ hc => exact h.shaped.freed c hc
    rw [hone]
    simp only [Nat.sub_self, if_true, State.delete, h.shaped.ptr x hlt]
    by_cases hmade : (s.controls x).eInstanceCount ∈ s.made
    · obtain ⟨hnot, hbalanced⟩ := hlast hmade
      simp only [if_pos hmade, if_neg hnot]
      exact ⟨_, rfl, ⟨hlive, h.shaped.weak, h.shaped.counter, h.shaped.ptr, hfreed,
        h.shaped.made⟩, hbalanced⟩
    · simp only [if_neg hmade]
      exact ⟨_, rfl, ⟨hlive, h.shaped.weak, h.shaped.counter, h.shaped.ptr, hfreed,
        h.shaped.made⟩, hlastNull hmade⟩
  · have hne : s.counts (s.controls x).eInstanceCount - 1 ≠ 0 := by omega
    rw [if_neg hne]
    refine ⟨_, rfl, ⟨fun c hc => h.shaped.live c (hsub c hc), h.shaped.weak, h.shaped.counter,
      h.shaped.ptr, h.shaped.freed, h.shaped.made⟩, ?_⟩
    exact h.balanced.lose hone hpos hheld

theorem toWeak (h : Inv s) (hx : x ∈ s.strong) : Inv { s with weak := x :: s.weak } := by
  refine ⟨⟨h.shaped.live, ?_, h.shaped.counter, h.shaped.ptr, h.shaped.freed, h.shaped.made⟩,
    h.balanced⟩
  intro w hw
  cases hw with
  | head => exact (h.shaped.live x hx).1
  | tail _ hw => exact h.shaped.weak w hw

theorem convert (h : Inv s) (hx : x ∈ s.strong) :
    Inv ((s.create (s.controls x)).increment (s.controls x).eInstanceCount) := by
  have hlt := (h.shaped.live x hx).1
  have hshaped := h.shaped.create _ (h.shaped.counter x hlt).le (h.shaped.ptr x hlt)
  refine ⟨⟨hshaped.live, hshaped.weak, hshaped.counter, hshaped.ptr, hshaped.freed,
    hshaped.made⟩, ?_⟩
  exact h.balanced.gain (fun _ => handlesTo_pos hx) (h.shaped.handlesTo_create (s.controls x))

/-- A call that meets the condition comes to an end, and keeps the invariant. -/
theorem step (h : Inv s) {act : Act} (hp : Possible s act) (hm : Meets s act) :
    ∃ s', Pointers.step s act = .ok s' ∧ Inv s' := by
  have hlive : ∀ y ∈ s.strong, y ∉ s.freed := fun y hy => (h.shaped.live y hy).2
  cases act with
  | construct => exact ⟨_, rfl, h.construct⟩
  | constructFrom => exact ⟨_, rfl, h.constructFrom⟩
  | copy y =>
    refine ⟨_, if_neg (hlive y hp), ?_⟩
    exact h.gain (h.shaped.live y hp).1 (hlive y hp) fun _ => handlesTo_pos hp
  | copyAssign u y => exact ⟨_, if_neg (hlive y hp.2), h.assign hp.1 hp.2 hm⟩
  | convert y => exact ⟨_, if_neg (hlive y hp), h.convert hp⟩
  | convertAssign u y =>
    refine ⟨_, if_neg ?_, h.become hp.1 hp.2 hm.1 hm.2⟩
    rintro (hu | hy)
    · exact hlive u hp.1 hu
    · exact hlive y hp.2 hy
  | toWeak y => exact ⟨_, rfl, h.toWeak hp⟩
  | lock w =>
    have hlt := h.shaped.weak w hp
    refine ⟨_, if_neg hm.1, h.gain hlt hm.1 ?_⟩
    intro hmade
    by_contra hz
    have hdel := (h.balanced.deleted _).mpr ⟨hmade, by omega⟩
    exact hm.2 ⟨_, by rw [h.shaped.ptr w hlt, if_pos hmade], hdel⟩
  | destroy y => exact h.destroy hp

end Inv

theorem Run.inv (h : Run s) : Inv s := by
  induction h with
  | start => exact inv_start
  | @step s s' act h hp hm hs ih =>
    obtain ⟨s₁, hs₁, hi⟩ := ih.step hp hm
    rw [hs] at hs₁
    cases hs₁
    exact hi

/-- `lock` hands out a handle to the block that it was asked for, whatever became of the
pointee. -/
theorem lockRight_iff (s : State) (w : Nat) : LockRight s w ↔ ¬ s.Gone w := by
  constructor
  · intro hlock hgone
    obtain ⟨s', c, hs, hstrong, hnull⟩ := hlock hgone
    obtain ⟨p, hp, -⟩ := hgone
    by_cases hf : w ∈ s.freed
    · simp [Pointers.step, hf] at hs
    · simp only [Pointers.step, if_neg hf] at hs
      cases hs
      obtain rfl : w = c := (List.cons.inj hstrong).1
      exact absurd (hp.symm.trans hnull) (Option.some_ne_none p)
  · intro hgone h
    exact absurd h hgone

theorem Inv.counted (h : Inv s) : Counted s where
  count := h.balanced.count
  once := h.balanced.once
  deleted p hp := by
    rw [h.balanced.deleted]
    simp [hp]

/-- In a history whose calls all meet the condition the counts are right in every state, no call
that meets it is undefined, and `lock` is right for the weak handles whose pointee is there. -/
theorem right_of_run (h : Run s) : Counted s ∧
    (∀ act, Possible s act → Meets s act → ∃ s', Pointers.step s act = .ok s') ∧
    ∀ w ∈ s.weak, LockRight s w ↔ ¬ s.Gone w := by
  refine ⟨h.inv.counted, ?_, fun w _ => lockRight_iff s w⟩
  intro act hp hm
  obtain ⟨s', hs', -⟩ := h.inv.step hp hm
  exact ⟨s', hs'⟩

/-- A handle that is assigned to a null one, made weak, locked, cast and copied: the pointee goes with
the last of the five. -/
theorem right_of_run_copy : ∃ s, Counted s ∧
    (∀ act, Possible s act → Meets s act → ∃ s', Pointers.step s act = .ok s') ∧
    (∀ w ∈ s.weak, LockRight s w ↔ ¬ s.Gone w) ∧ s.weak = [0] ∧ s.made = [0] ∧ s.deleted = [0] := by
  have h₁ : Run _ := .step .start (show Possible .start .constructFrom from trivial) trivial rfl
  have h₂ : Run _ := .step h₁ (show Possible _ .construct from trivial) trivial rfl
  have h₃ : Run _ := .step h₂ (by decide : Possible _ (.copyAssign 1 0)) rfl rfl
  have h₄ : Run _ := .step h₃ (by decide : Possible _ (.toWeak 0)) trivial rfl
  have h₅ : Run _ := .step h₄ (by decide : Possible _ (.lock 0))
    ⟨by decide, fun hgone => List.not_mem_nil hgone.choose_spec.2⟩ rfl
  have h₆ : Run _ := .step h₅ (by decide : Possible _ (.convert 0)) trivial rfl
  have h₇ : Run _ := .step h₆ (by decide : Possible _ (.copy 0)) trivial rfl
  have h₈ : Run _ := .step h₇ (by decide : Possible _ (.destroy 2)) trivial rfl
  have h₉ : Run _ := .step h₈ (by decide : Possible _ (.destroy 0)) trivial rfl
  have h₁₀ : Run _ := .step h₉ (by decide : Possible _ (.destroy 0)) trivial rfl
  have h₁₁ : Run _ := .step h₁₀ (by decide : Possible _ (.destroy 0)) trivial rfl
  have h₁₂ : Run _ := .step h₁₁ (by decide : Possible _ (.destroy 0)) trivial rfl
  obtain ⟨hcounted, hdefined, hlock⟩ := right_of_run h₁₂
  exact ⟨_, hcounted, hdefined, hlock, rfl, rfl, rfl⟩

/-- A handle assigned to itself is counted twice. -/
theorem self_assigned_wrong :
    ¬ ∀ s, History s → Counted s ∧ ∀ w ∈ s.weak, LockRight s w := by
  intro hall
  have h₁ : History _ := .step .start (show Possible .start .constructFrom from trivial) rfl
  have h₂ : History _ := .step h₁ (by decide : Possible _ (.copyAssign 0 0)) rfl
  have hcount := (hall _ h₂).1.count 0 (by decide)
  exact absurd hcount (by decide)

end

end WylesLibs.Memory.Pointers
