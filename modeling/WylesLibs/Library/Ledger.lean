import Mathlib

/-! Rights that can be used once. Each request gets one, numbered in the order of the requests; it
waits in a queue or is held by a party, and is used up or lost. Independent of what the rights
are for. -/
namespace WylesLibs.Library
variable {ι : Type}

/-- `queued` and `taken` keep what was put into the queue and what was taken from it, `spent` the
rights that were used, all in order of time. -/
structure Ledger (ι : Type) where
  next : Nat
  queue : List Nat
  queued : List Nat
  taken : List Nat
  spent : List Nat
  holds : ι → Nat → Prop

namespace Ledger

/-- A party may lose rights at any step; it gets one by a request or from the queue. -/
inductive Step (c : Ledger ι) : Ledger ι → Prop where
  | keep {holds : ι → Nat → Prop} (h : ∀ i k, holds i k → c.holds i k) :
      Step c { c with holds := holds }
  | enqueue {holds : ι → Nat → Prop} (h : ∀ i k, holds i k → c.holds i k) :
      Step c { c with
        next := c.next + 1
        queue := c.queue ++ [c.next]
        queued := c.queued ++ [c.next]
        holds := holds }
  | grant (o : Option ι) {holds : ι → Nat → Prop}
      (h : ∀ i k, holds i k → c.holds i k ∨ (o = some i ∧ k = c.next)) :
      Step c { c with next := c.next + 1, holds := holds }
  | take {i : ι} {k : Nat} {queue : List Nat} {holds : ι → Nat → Prop}
      (hqueue : c.queue = k :: queue)
      (h : ∀ j l, holds j l → c.holds j l ∨ (j = i ∧ l = k)) :
      Step c { c with queue := queue, taken := c.taken ++ [k], holds := holds }
  | spend {i : ι} {k : Nat} {holds : ι → Nat → Prop} (hk : c.holds i k)
      (h : ∀ j l, holds j l → c.holds j l ∧ ¬ (j = i ∧ l = k)) :
      Step c { c with spent := c.spent ++ [k], holds := holds }

/-- No right is in two places, and none that is still to be had was used before. -/
structure Ok (c : Ledger ι) : Prop where
  fifo : c.taken ++ c.queue = c.queued
  sorted : c.queued.Pairwise (· < ·)
  queued_lt : ∀ k ∈ c.queued, k < c.next
  held_lt : ∀ i k, c.holds i k → k < c.next
  held_once : ∀ i j k, c.holds i k → c.holds j k → i = j
  held_not_queued : ∀ i k, c.holds i k → k ∉ c.queue
  held_not_spent : ∀ i k, c.holds i k → k ∉ c.spent
  queued_not_spent : ∀ k ∈ c.queue, k ∉ c.spent
  spent_nodup : c.spent.Nodup
  spent_lt : ∀ k ∈ c.spent, k < c.next

theorem Ok.queue_lt {c : Ledger ι} (hc : c.Ok) : ∀ k ∈ c.queue, k < c.next := fun k hk =>
  hc.queued_lt k (hc.fifo ▸ List.mem_append_right c.taken hk)

theorem Ok.queue_sorted {c : Ledger ι} (hc : c.Ok) : c.queue.Pairwise (· < ·) :=
  (List.pairwise_append.mp (hc.fifo ▸ hc.sorted)).2.1

/-- The ledger of a party that has not yet had a request. -/
theorem Ok.empty (n : Nat) : (⟨n, [], [], [], [], fun _ _ => False⟩ : Ledger ι).Ok where
  fifo := rfl
  sorted := .nil
  queued_lt := by simp
  held_lt := by simp
  held_once := by simp
  held_not_queued := by simp
  held_not_spent := by simp
  queued_not_spent := by simp
  spent_nodup := .nil
  spent_lt := by simp

theorem Ok.step {c d : Ledger ι} (hc : c.Ok) (h : Step c d) : d.Ok := by
  cases h with
  | keep h =>
    exact { hc with
      held_lt := fun i k hk => hc.held_lt i k (h i k hk)
      held_once := fun i j k hi hj => hc.held_once i j k (h i k hi) (h j k hj)
      held_not_queued := fun i k hk => hc.held_not_queued i k (h i k hk)
      held_not_spent := fun i k hk => hc.held_not_spent i k (h i k hk) }
  | enqueue h =>
    have hnew : ∀ i k, c.holds i k → k ≠ c.next := fun i k hk => (hc.held_lt i k hk).ne
    exact {
      fifo := by rw [← List.append_assoc, hc.fifo]
      sorted := List.pairwise_append.mpr ⟨hc.sorted, List.pairwise_singleton _ _,
        fun k hk l hl => by rw [List.mem_singleton.mp hl]; exact hc.queued_lt k hk⟩
      queued_lt := fun k hk => by
        obtain hk | hk := List.mem_append.mp hk
        · exact Nat.lt_succ_of_lt (hc.queued_lt k hk)
        · rw [List.mem_singleton.mp hk]
          exact Nat.lt_succ_self c.next
      held_lt := fun i k hk => Nat.lt_succ_of_lt (hc.held_lt i k (h i k hk))
      held_once := fun i j k hi hj => hc.held_once i j k (h i k hi) (h j k hj)
      held_not_queued := fun i k hk hq => by
        obtain hq | hq := List.mem_append.mp hq
        · exact hc.held_not_queued i k (h i k hk) hq
        · exact hnew i k (h i k hk) (List.mem_singleton.mp hq)
      held_not_spent := fun i k hk => hc.held_not_spent i k (h i k hk)
      queued_not_spent := fun k hk hs => by
        obtain hk | hk := List.mem_append.mp hk
        · exact hc.queued_not_spent k hk hs
        · exact (hc.spent_lt k hs).ne (List.mem_singleton.mp hk)
      spent_nodup := hc.spent_nodup
      spent_lt := fun k hk => Nat.lt_succ_of_lt (hc.spent_lt k hk) }
  | grant o h =>
    exact {
      fifo := hc.fifo
      sorted := hc.sorted
      queued_lt := fun k hk => Nat.lt_succ_of_lt (hc.queued_lt k hk)
      held_lt := fun i k hk => by
        obtain hk | ⟨-, rfl⟩ := h i k hk
        · exact Nat.lt_succ_of_lt (hc.held_lt i k hk)
        · exact Nat.lt_succ_self c.next
      held_once := fun i j k hi hj => by
        obtain hci | ⟨hoi, hk⟩ := h i k hi <;> obtain hcj | ⟨hoj, hl⟩ := h j k hj
        · exact hc.held_once i j k hci hcj
        · exact absurd hl (hc.held_lt i k hci).ne
        · exact absurd hk (hc.held_lt j k hcj).ne
        · exact Option.some.inj (hoi.symm.trans hoj)
      held_not_queued := fun i k hk hq => by
        obtain hk | ⟨-, rfl⟩ := h i k hk
        · exact hc.held_not_queued i k hk hq
        · exact Nat.lt_irrefl _ (hc.queue_lt _ hq)
      held_not_spent := fun i k hk hs => by
        obtain hk | ⟨-, rfl⟩ := h i k hk
        · exact hc.held_not_spent i k hk hs
        · exact Nat.lt_irrefl _ (hc.spent_lt _ hs)
      queued_not_spent := hc.queued_not_spent
      spent_nodup := hc.spent_nodup
      spent_lt := fun k hk => Nat.lt_succ_of_lt (hc.spent_lt k hk) }
  | @take i k queue holds hqueue h =>
    have hmem : k ∈ c.queue := by rw [hqueue]; exact List.mem_cons_self
    have hsub : ∀ l ∈ queue, l ∈ c.queue := fun l hl => by
      rw [hqueue]
      exact List.mem_cons_of_mem k hl
    have hlt : ∀ l ∈ queue, k < l := by
      have hsorted := hc.queue_sorted
      rw [hqueue] at hsorted
      exact (List.pairwise_cons.mp hsorted).1
    exact { hc with
      fifo := by rw [List.append_assoc, List.singleton_append, ← hqueue, hc.fifo]
      held_lt := fun j l hl => by
        obtain hl | ⟨-, rfl⟩ := h j l hl
        · exact hc.held_lt j l hl
        · exact hc.queue_lt _ hmem
      held_once := fun a b l ha hb => by
        obtain ha | ⟨rfl, rfl⟩ := h a l ha <;> obtain hb | ⟨hb, hl⟩ := h b _ hb
        · exact hc.held_once a b l ha hb
        · exact absurd (hl ▸ hmem) (hc.held_not_queued a l ha)
        · exact absurd hmem (hc.held_not_queued b _ hb)
        · exact hb.symm
      held_not_queued := fun j l hl hq => by
        obtain hl | ⟨-, rfl⟩ := h j l hl
        · exact hc.held_not_queued j l hl (hsub l hq)
        · exact Nat.lt_irrefl _ (hlt _ hq)
      held_not_spent := fun j l hl => by
        obtain hl | ⟨-, rfl⟩ := h j l hl
        · exact hc.held_not_spent j l hl
        · exact hc.queued_not_spent _ hmem
      queued_not_spent := fun l hl => hc.queued_not_spent l (hsub l hl) }
  | @spend i k holds hk h =>
    have hne : ∀ j l, holds j l → l ≠ k := fun j l hl heq => by
      obtain ⟨hj, hnot⟩ := h j l hl
      exact hnot ⟨hc.held_once j i k (heq ▸ hj) hk, heq⟩
    exact { hc with
      held_lt := fun j l hl => hc.held_lt j l (h j l hl).1
      held_once := fun a b l ha hb => hc.held_once a b l (h a l ha).1 (h b l hb).1
      held_not_queued := fun j l hl => hc.held_not_queued j l (h j l hl).1
      held_not_spent := fun j l hl hs => by
        obtain hs | hs := List.mem_append.mp hs
        · exact hc.held_not_spent j l (h j l hl).1 hs
        · exact hne j l hl (List.mem_singleton.mp hs)
      queued_not_spent := fun l hl hs => by
        obtain hs | hs := List.mem_append.mp hs
        · exact hc.queued_not_spent l hl hs
        · exact hc.held_not_queued i k hk (List.mem_singleton.mp hs ▸ hl)
      spent_nodup := List.nodup_append.mpr ⟨hc.spent_nodup, List.nodup_singleton k,
        fun l hl m hm heq => hc.held_not_spent i k hk (List.mem_singleton.mp hm ▸ heq ▸ hl)⟩
      spent_lt := fun l hl => by
        obtain hl | hl := List.mem_append.mp hl
        · exact hc.spent_lt l hl
        · rw [List.mem_singleton.mp hl]
          exact hc.held_lt i k hk }

/-! Where a right is. -/

/-- The right waits in the queue, is held by a party, or was used. -/
def Has (c : Ledger ι) (k : Nat) : Prop := k ∈ c.queue ∨ (∃ i, c.holds i k) ∨ k ∈ c.spent

/-- Only a request makes a right. -/
theorem Step.has {c d : Ledger ι} (h : Step c d) {k : Nat} (hk : d.Has k) :
    c.Has k ∨ k = c.next ∧ d.next = c.next + 1 := by
  cases h with
  | keep h =>
    obtain hk | ⟨i, hk⟩ | hk := hk
    · exact Or.inl (Or.inl hk)
    · exact Or.inl (Or.inr (Or.inl ⟨i, h i k hk⟩))
    · exact Or.inl (Or.inr (Or.inr hk))
  | enqueue h =>
    obtain hk | ⟨i, hk⟩ | hk := hk
    · obtain hk | hk := List.mem_append.mp hk
      · exact Or.inl (Or.inl hk)
      · exact Or.inr ⟨List.mem_singleton.mp hk, rfl⟩
    · exact Or.inl (Or.inr (Or.inl ⟨i, h i k hk⟩))
    · exact Or.inl (Or.inr (Or.inr hk))
  | grant o h =>
    obtain hk | ⟨i, hk⟩ | hk := hk
    · exact Or.inl (Or.inl hk)
    · obtain hk | ⟨-, hk⟩ := h i k hk
      · exact Or.inl (Or.inr (Or.inl ⟨i, hk⟩))
      · exact Or.inr ⟨hk, rfl⟩
    · exact Or.inl (Or.inr (Or.inr hk))
  | take hqueue h =>
    left
    obtain hk | ⟨i, hk⟩ | hk := hk
    · exact Or.inl (hqueue ▸ List.mem_cons_of_mem _ hk)
    · obtain hk | ⟨-, rfl⟩ := h i k hk
      · exact Or.inr (Or.inl ⟨i, hk⟩)
      · exact Or.inl (hqueue ▸ List.mem_cons_self)
    · exact Or.inr (Or.inr hk)
  | spend hheld h =>
    left
    obtain hk | ⟨i, hk⟩ | hk := hk
    · exact Or.inl hk
    · exact Or.inr (Or.inl ⟨i, (h i k hk).1⟩)
    · obtain hk | hk := List.mem_append.mp hk
      · exact Or.inr (Or.inr hk)
      · obtain rfl := List.mem_singleton.mp hk
        exact Or.inr (Or.inl ⟨_, hheld⟩)

theorem Ok.queue_nodup {c : Ledger ι} (hc : c.Ok) : c.queue.Nodup :=
  hc.queue_sorted.imp fun h => h.ne

/-- A right is in one place. -/
theorem Ok.count {c : Ledger ι} [Fintype ι] (hc : c.Ok) (k : Nat) [DecidablePred (c.holds · k)]
    (hk : c.Has k) :
    c.queue.count k + (Finset.univ.filter (c.holds · k)).card + c.spent.count k = 1 := by
  by_cases hqueue : k ∈ c.queue
  · have hspent : k ∉ c.spent := hc.queued_not_spent k hqueue
    have hheld : Finset.univ.filter (c.holds · k) = ∅ :=
      Finset.filter_eq_empty_iff.mpr fun i _ hi => hc.held_not_queued i k hi hqueue
    rw [List.count_eq_one_of_mem hc.queue_nodup hqueue, hheld, List.count_eq_zero_of_not_mem hspent]
    rfl
  · rw [List.count_eq_zero_of_not_mem hqueue]
    obtain hk | ⟨i, hi⟩ | hspent := hk
    · exact absurd hk hqueue
    · have hspent : k ∉ c.spent := hc.held_not_spent i k hi
      have hheld : Finset.univ.filter (c.holds · k) = {i} := by
        ext j
        simp only [Finset.mem_filter, Finset.mem_univ, true_and, Finset.mem_singleton]
        exact ⟨fun hj => hc.held_once j i k hj hi, fun hj => hj ▸ hi⟩
      rw [hheld, Finset.card_singleton, List.count_eq_zero_of_not_mem hspent]
    · have hheld : Finset.univ.filter (c.holds · k) = ∅ :=
        Finset.filter_eq_empty_iff.mpr fun i _ hi => hc.held_not_spent i k hi hspent
      rw [hheld, List.count_eq_one_of_mem hc.spent_nodup hspent]
      rfl

/-- What is not had is nowhere. -/
theorem count_of_not_has {c : Ledger ι} [Fintype ι] {k : Nat} [DecidablePred (c.holds · k)]
    (hk : ¬ c.Has k) :
    c.queue.count k + (Finset.univ.filter (c.holds · k)).card + c.spent.count k = 0 := by
  have hqueue : k ∉ c.queue := fun h => hk (Or.inl h)
  have hspent : k ∉ c.spent := fun h => hk (Or.inr (Or.inr h))
  have hheld : Finset.univ.filter (c.holds · k) = ∅ :=
    Finset.filter_eq_empty_iff.mpr fun i _ hi => hk (Or.inr (Or.inl ⟨i, hi⟩))
  rw [List.count_eq_zero_of_not_mem hqueue, hheld, List.count_eq_zero_of_not_mem hspent]
  rfl

end Ledger
end WylesLibs.Library
