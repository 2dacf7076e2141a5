import Mathlib.Data.List.Infix

/-! The ring indices of `ringindex.h`: two wrapping indices over `cap + 1` slots, beside the queue
that they are the indices of. -/
namespace WylesLibs.RingIndex

structure SArray where
  push : UInt64
  pop : UInt64
  cap : UInt64
deriving DecidableEq

def sArrayInit (cap : UInt64) : SArray := ⟨-1, -1, cap⟩

/-- The answer is 1 when the oldest element was removed. -/
def sArrayAdd (buffer : SArray) : UInt64 × SArray :=
  let push := if buffer.push + 1 > buffer.cap then 0 else buffer.push + 1
  if push = buffer.pop then (1, { buffer with push, pop := buffer.pop + 1 })
  else (0, { buffer with push })

def sArrayRemove (buffer : SArray) : SArray :=
  if buffer.push ≠ buffer.pop then
    { buffer with pop := if buffer.pop + 1 > buffer.cap then 0 else buffer.pop + 1 }
  else buffer

def sArraySize (buffer : SArray) : UInt64 :=
  if buffer.push < buffer.pop then buffer.push + (buffer.cap - buffer.pop) + 1
  else if buffer.push > buffer.pop then buffer.push - buffer.pop
  else 0

/-! The queue: it holds at most `cap` elements, and drops its oldest one when it is full. -/

variable {α : Type}

/-- The element that is dropped, and the queue after it. -/
def fifoAdd (cap : Nat) (queue : List α) (x : α) : Option α × List α :=
  if queue.length < cap then (none, queue ++ [x]) else (queue.head?, queue.tail ++ [x])

inductive RingCall (α : Type) where
  | add (x : α)
  | remove

def SArray.step (buffer : SArray) : RingCall α → SArray
  | .add _ => (sArrayAdd buffer).2
  | .remove => sArrayRemove buffer

def fifoStep (cap : Nat) (queue : List α) : RingCall α → List α
  | .add x => (fifoAdd cap queue x).2
  | .remove => queue.tail

def ringAfter (cap : UInt64) (calls : List (RingCall α)) : SArray :=
  calls.foldl SArray.step (sArrayInit cap)

def fifoAfter (cap : UInt64) (calls : List (RingCall α)) : List α :=
  calls.foldl (fifoStep cap.toNat) []

/-- The indices answer as the queue does, in every state that the calls go through. -/
structure Refines (cap : UInt64) (calls : List (RingCall α)) : Prop where
  size : ∀ pre, pre <+: calls → (sArraySize (ringAfter cap pre)).toNat = (fifoAfter cap pre).length
  report : ∀ pre x, pre ++ [.add x] <+: calls →
    ((sArrayAdd (ringAfter cap pre)).1 = 1 ↔
      (fifoAdd cap.toNat (fifoAfter cap pre) x).1.isSome = true)
  push : ∀ pre pre', pre <+: pre' → pre' <+: calls →
    (ringAfter cap pre).push ≠ (sArrayInit cap).push → (ringAfter cap pre').push ≤ cap
  pop : ∀ pre pre', pre <+: pre' → pre' <+: calls →
    (ringAfter cap pre).pop ≠ (sArrayInit cap).pop → (ringAfter cap pre').pop ≤ cap

/-! One call, between indices that have both been set. -/

/-- The indices lie among the `cap + 1` slots, and are as far apart as the queue is long. -/
structure Holds (buffer : SArray) (queue : List α) : Prop where
  push : buffer.push.toNat ≤ buffer.cap.toNat
  pop : buffer.pop.toNat ≤ buffer.cap.toNat
  length : queue.length ≤ buffer.cap.toNat
  apart : buffer.pop.toNat + queue.length = buffer.push.toNat ∨
    buffer.pop.toNat + queue.length = buffer.push.toNat + (buffer.cap.toNat + 1)

variable {buffer : SArray} {queue : List α} {cap : UInt64} {calls : List (RingCall α)}

/-- The next slot after one of the slots. -/
theorem toNat_next {i cap : UInt64} (h : i.toNat ≤ cap.toNat) :
    i.toNat = cap.toNat ∧ (if i + 1 > cap then 0 else i + 1).toNat = 0 ∨
      i.toNat < cap.toNat ∧ (if i + 1 > cap then 0 else i + 1).toNat = i.toNat + 1 := by
  have hcap := cap.toNat_lt
  have hone : (1 : UInt64).toNat = 1 := rfl
  by_cases hlast : i.toNat = cap.toNat
  · apply Or.inl
    refine ⟨hlast, ?_⟩
    rw [UInt64.toNat_inj.mp hlast]
    split
    · rfl
    · rename_i hwrap
      simp only [gt_iff_lt, UInt64.lt_iff_toNat_lt, UInt64.toNat_add] at *
      omega
  · have hnext : (i + 1).toNat = i.toNat + 1 := by
      rw [UInt64.toNat_add]
      omega
    apply Or.inr
    rw [if_neg, hnext]
    · omega
    · rw [gt_iff_lt, UInt64.lt_iff_toNat_lt, hnext]
      omega

theorem Holds.size (h : Holds buffer queue) : (sArraySize buffer).toNat = queue.length := by
  obtain ⟨hpush, hpop, hlength, hapart⟩ := h
  have hcap := buffer.cap.toNat_lt
  simp only [sArraySize, gt_iff_lt, UInt64.lt_iff_toNat_lt]
  split
  · simp only [UInt64.toNat_add, UInt64.toNat_sub, UInt64.reduceToNat]
    omega
  · split
    · simp only [UInt64.toNat_sub]
      omega
    · simp only [UInt64.reduceToNat]
      omega

theorem Holds.remove (h : Holds buffer queue) : Holds (sArrayRemove buffer) queue.tail := by
  obtain ⟨hpush, hpop, hlength, hapart⟩ := h
  rw [sArrayRemove]
  split
  · rename_i hne
    have hne' : buffer.push.toNat ≠ buffer.pop.toNat := fun heq => hne (UInt64.toNat_inj.mp heq)
    have hnext := toNat_next hpop
    generalize (if buffer.pop + 1 > buffer.cap then 0 else buffer.pop + 1) = n at hnext
    have htail : queue.tail.length = queue.length - 1 := List.length_tail
    constructor
    all_goals dsimp only; omega
  · rename_i heq
    obtain rfl : queue = [] := by
      rw [not_not.mp heq] at hapart
      rw [← List.length_eq_zero_iff]
      omega
    exact ⟨hpush, hpop, hlength, hapart⟩

/-- An element is added to a ring whose oldest element is not dropped past the last slot. -/
theorem Holds.add (h : Holds buffer queue) (x : α) (hcap : 1 ≤ buffer.cap.toNat)
    (hlast : queue.length = buffer.cap.toNat → buffer.pop = buffer.cap → buffer.cap = -1) :
    Holds (sArrayAdd buffer).2 (fifoAdd buffer.cap.toNat queue x).2 ∧
      ((sArrayAdd buffer).1 = 1 ↔ (fifoAdd buffer.cap.toNat queue x).1.isSome = true) := by
  obtain ⟨hpush, hpop, hlength, hapart⟩ := h
  have hnext := toNat_next hpush
  simp only [sArrayAdd, fifoAdd]
  generalize (if buffer.push + 1 > buffer.cap then 0 else buffer.push + 1) = n at hnext
  have hfull : n = buffer.pop ↔ queue.length = buffer.cap.toNat := by
    rw [← UInt64.toNat_inj]
    omega
  by_cases hq : queue.length = buffer.cap.toNat
  · have hdropped : (queue.tail ++ [x]).length = queue.length := by
      rw [List.length_append, List.length_tail, List.length_singleton]
      omega
    have hhead : queue.head?.isSome = true := by
      cases queue with
      | nil => exact absurd hq (Nat.ne_of_lt hcap)
      | cons y ys => rfl
    have hkept : ¬ buffer.pop + 1 > buffer.cap := by
      by_cases heq : buffer.pop = buffer.cap
      · rw [heq, hlast hq heq]
        decide
      · have hone : (1 : UInt64).toNat = 1 := rfl
        have hlt := buffer.cap.toNat_lt
        have hne : buffer.pop.toNat ≠ buffer.cap.toNat := fun h => heq (UInt64.toNat_inj.mp h)
        rw [gt_iff_lt, UInt64.lt_iff_toNat_lt, UInt64.toNat_add]
        omega
    have hpopped := toNat_next hpop
    rw [if_neg hkept] at hpopped
    rw [if_pos (hfull.mpr hq), if_neg (by omega)]
    refine ⟨?_, iff_of_true rfl hhead⟩
    constructor
    all_goals dsimp only; omega
  · rw [if_neg (hfull.not.mpr hq), if_pos (by omega)]
    have hadded : (queue ++ [x]).length = queue.length + 1 := List.length_append
    refine ⟨?_, iff_of_false UInt64.zero_ne_one (by simp)⟩
    constructor
    all_goals dsimp only; omega

/-! Whole histories. -/

theorem ringAfter_snoc (cap : UInt64) (calls : List (RingCall α)) (call : RingCall α) :
    ringAfter cap (calls ++ [call]) = (ringAfter cap calls).step call := by
  rw [ringAfter, List.foldl_append]
  rfl

theorem fifoAfter_snoc (cap : UInt64) (calls : List (RingCall α)) (call : RingCall α) :
    fifoAfter cap (calls ++ [call]) = fifoStep cap.toNat (fifoAfter cap calls) call := by
  rw [fifoAfter, List.foldl_append]
  rfl

theorem ringAfter_cap (cap : UInt64) (calls : List (RingCall α)) :
    (ringAfter cap calls).cap = cap := by
  induction calls using List.reverseRecOn with
  | nil => rfl
  | append_singleton calls call ih =>
    rw [ringAfter_snoc]
    cases call with
    | add x =>
      simp only [SArray.step, sArrayAdd]
      generalize (if (ringAfter cap calls).push + 1 > (ringAfter cap calls).cap then 0
        else (ringAfter cap calls).push + 1) = push
      split
      · exact ih
      · exact ih
    | remove =>
      simp only [SArray.step, sArrayRemove]
      split
      · exact ih
      · exact ih

/-- With a slot for every index, the initial indices are those of an empty queue, and none is ever
dropped past the last slot. -/
theorem holds_ringAfter (calls : List (RingCall α)) :
    Holds (ringAfter (-1) calls) (fifoAfter (-1) calls) := by
  induction calls using List.reverseRecOn with
  | nil => exact ⟨Nat.le_refl _, Nat.le_refl _, Nat.zero_le _, Or.inl rfl⟩
  | append_singleton calls call ih =>
    rw [ringAfter_snoc, fifoAfter_snoc]
    have hcap := ringAfter_cap (-1) calls
    cases call with
    | add x =>
      have hadd := ih.add x (by rw [hcap]; decide) (fun _ _ => hcap)
      rw [hcap] at hadd
      exact hadd.1
    | remove => exact ih.remove

/-- Without an element to remove, nothing happens to the ring. -/
theorem after_removes (cap : UInt64) (h : ∀ x, .add x ∉ calls) :
    ringAfter cap calls = sArrayInit cap ∧ fifoAfter cap calls = [] := by
  induction calls using List.reverseRecOn with
  | nil => exact ⟨rfl, rfl⟩
  | append_singleton calls call ih =>
    obtain ⟨hring, hfifo⟩ := ih fun x hx => h x (List.mem_append_left _ hx)
    rw [ringAfter_snoc, fifoAfter_snoc, hring, hfifo]
    cases call with
    | add x => exact absurd (by simp) (h x)
    | remove =>
      refine ⟨?_, rfl⟩
      have hsame : ¬ (sArrayInit cap).push ≠ (sArrayInit cap).pop := not_not.mpr rfl
      rw [SArray.step, sArrayRemove, if_neg hsame]

theorem exists_first_add (h : ∃ x, .add x ∈ calls) :
    ∃ pre x post, calls = pre ++ .add x :: post ∧ ∀ y, .add y ∉ pre := by
  induction calls with
  | nil => simp at h
  | cons call calls ih =>
    cases call with
    | add x => exact ⟨[], x, calls, rfl, fun _ => List.not_mem_nil⟩
    | remove =>
      obtain ⟨pre, x, post, rfl, hpre⟩ := ih (by simpa using h)
      exact ⟨.remove :: pre, x, post, rfl, by simpa using hpre⟩

/-- The first element that is added leaves `pop` unset, and is counted with the slots up to it. -/
theorem size_first_add (cap : UInt64) (x : α) :
    sArraySize ((sArrayInit cap).step (.add x)) = cap + 2 := by
  have hstep : (sArrayInit cap).step (.add x) = ⟨0, -1, cap⟩ := by
    have hwrap : (-1 + 1 : UInt64) = 0 := rfl
    have hne : (0 : UInt64) ≠ -1 := by decide
    simp [SArray.step, sArrayAdd, sArrayInit, hwrap, hne]
  have hlt : (0 : UInt64) < -1 := by decide
  rw [hstep, sArraySize, if_pos hlt]
  grind

/-- The indices answer as the queue does just if nothing is ever added, or there are so many slots
that unset indices are among them. -/
theorem refines_iff (cap : UInt64) (calls : List (RingCall α)) :
    Refines cap calls ↔ cap = -1 ∨ ∀ x, .add x ∉ calls := by
  constructor
  · intro h
    by_cases hadd : ∃ x, .add x ∈ calls
    · apply Or.inl
      obtain ⟨pre, x, post, rfl, hpre⟩ := exists_first_add hadd
      obtain ⟨hring, hfifo⟩ := after_removes cap hpre
      have hsize := h.size (pre ++ [.add x]) (by simp)
      rw [ringAfter_snoc, fifoAfter_snoc, hring, hfifo, size_first_add] at hsize
      have hlength : (fifoStep cap.toNat [] (.add x)).length = 1 := by
        rw [fifoStep, fifoAdd]
        split
        · rfl
        · rfl
      rw [hlength] at hsize
      have hone : cap + 2 = 1 := UInt64.toNat_inj.mp hsize
      grind
    · exact Or.inr (not_exists.mp hadd)
  · intro h
    cases h with
    | inl hcap =>
      subst hcap
      constructor
      · intro pre _
        exact (holds_ringAfter pre).size
      · intro pre x _
        have hcap := ringAfter_cap (-1) pre
        have hadd := (holds_ringAfter pre).add x (by rw [hcap]; decide) (fun _ _ => hcap)
        rw [hcap] at hadd
        exact hadd.2
      · intro pre pre' _ _ _
        have hpush := (holds_ringAfter pre').push
        rwa [ringAfter_cap, ← UInt64.le_iff_toNat_le] at hpush
      · intro pre pre' _ _ _
        have hpop := (holds_ringAfter pre').pop
        rwa [ringAfter_cap, ← UInt64.le_iff_toNat_le] at hpop
    | inr hremoves =>
      have hinit : ∀ pre, pre <+: calls →
          ringAfter cap pre = sArrayInit cap ∧ fifoAfter cap pre = [] :=
        fun pre hpre => after_removes cap fun x hx => hremoves x (hpre.subset hx)
      constructor
      · intro pre hpre
        obtain ⟨hring, hfifo⟩ := hinit pre hpre
        rw [hring, hfifo, sArraySize]
        simp [sArrayInit]
      · intro pre x hpre
        exact absurd (hpre.subset (by simp)) (hremoves x)
      · intro pre pre' hpre hpre' hset
        exact absurd (by rw [(hinit pre (hpre.trans hpre')).1]) hset
      · intro pre pre' hpre hpre' hset
        exact absurd (by rw [(hinit pre (hpre.trans hpre')).1]) hset

theorem refines_one_add : ¬ ∀ (cap : UInt64) (calls : List (RingCall Unit)), 1 ≤ cap →
    Refines cap calls := by
  intro hevery
  have hsize := (hevery 1 [.add ()] (by decide)).size [.add ()] (List.prefix_refl _)
  cases hsize

end WylesLibs.RingIndex
