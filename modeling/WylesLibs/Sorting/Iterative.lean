import WylesLibs.Datastructures.SortOrder
import WylesLibs.Sorting.InPlace

/-! The merge sort without a recursion: spans that double, and one swap space for all merges, with
as many cells as the larger half has elements. -/
namespace WylesLibs.Sorting
open Library Datastructures
variable {T : Type} [LT T] [DecidableLT T]

namespace Iterative

/-- `while (i < size)` -/
def pairsLoop (size span : Nat) :
    Nat → Nat → List (Option T) × List (Option T) → Outcome (List (Option T) × List (Option T))
  | 0, i, buffers => if i < size then .timeout else .ok buffers
  | n + 1, i, (eBuf, swapSpace) =>
    if i < size then
      (if i + span < size then
        let rightSize := if i + span + span > size then size - (i + span) else span
        Scratch.merge eBuf i span (i + span) rightSize swapSpace
      else
        .ok (eBuf, swapSpace)).bind (pairsLoop size span n (i + 2 * span))
    else
      .ok (eBuf, swapSpace)

/-- `while (span < size)` -/
def spanLoop (size : Nat) :
    Nat → Nat → List (Option T) × List (Option T) → Outcome (List (Option T) × List (Option T))
  | 0, span, buffers => if span < size then .timeout else .ok buffers
  | n + 1, span, buffers =>
    if span < size then
      (pairsLoop size span size 0 buffers).bind (spanLoop size n (span * 2))
    else
      .ok buffers

/-- The swap space that is passed is not used. -/
def nlognSort (eBuf : List (Option T)) (size : Nat) : Outcome (List (Option T)) :=
  if size ≤ 1 then
    .ok eBuf
  else
    let sizeLeft := (size + 1) / 2
    (spanLoop size size 1 (eBuf, newCArray T sizeLeft)).bind fun buffers => .ok buffers.1

end Iterative

/-! The sort is that of `Array::sort` with another swap space, for a `==` that says that neither
element is greater. -/

/-- Elements are `==` if neither is greater. -/
@[reducible] def tieBEq (T : Type) [LT T] [DecidableLT T] : BEq T :=
  ⟨fun a b => !decide (a > b) && !decide (b > a)⟩

theorem elementOrder_tie [WeakOrder T] : @ElementOrder T (tieBEq T) _ := by
  apply @ElementOrder.mk T (tieBEq T) _
  · intro a b
    change (!decide (a > b) && !decide (b > a)) = true ↔ ¬ a > b ∧ ¬ b > a
    simp only [Bool.and_eq_true, Bool.not_eq_true', decide_eq_false_iff_not]
  · exact WeakOrder.asymm
  · exact WeakOrder.trans

theorem inOrder_tie : @inOrder T (tieBEq T) _ _ .ascending = ascends := by
  funext a b
  have hcompare : @inOrder T (tieBEq T) _ _ .ascending a b =
      decide ((if !decide (a > b) && !decide (b > a) then 0 else if a > b then 1 else -1 : Int) ≤ 0) :=
    rfl
  rw [hcompare]
  by_cases hab : a > b
  · simp [ascends, hab]
  · by_cases hba : b > a
    · simp [ascends, hab, hba]
    · simp [ascends, hab, hba]

theorem displaced_tie (as bs : List T) : @displaced T (Scratch.noBEq T) _ _ .ascending as bs =
    @displaced T (tieBEq T) _ _ .ascending as bs := by
  cases bs with
  | nil => rfl
  | cons b bs =>
    simp only [displaced, rightFirst, Scratch.inOrder_eq_ascends, inOrder_tie]

theorem passFits_tie {cap : Nat} (rs : List (List T)) :
    @PassFits T (Scratch.noBEq T) _ _ .ascending cap rs ↔
      @PassFits T (tieBEq T) _ _ .ascending cap rs := by
  induction rs using joinPairs.induct with
  | case1 r s rs ih => simp only [PassFits, displaced_tie, ih]
  | case2 rs hne =>
    cases rs with
    | nil => exact Iff.rfl
    | cons r rs =>
      cases rs with
      | nil => exact Iff.rfl
      | cons s rs => exact absurd rfl (hne r s rs)

theorem runsAfter_tie (n : Nat) (l : List T) :
    @runsAfter T (Scratch.noBEq T) _ _ .ascending n l =
      @runsAfter T (tieBEq T) _ _ .ascending n l := by
  have hmerge : @mergeRuns T (Scratch.noBEq T) _ _ .ascending =
      @mergeRuns T (tieBEq T) _ _ .ascending := by
    funext rs
    simp only [mergeRuns, Scratch.inOrder_eq_ascends, inOrder_tie]
  simp only [runsAfter, hmerge]

theorem precedes_tie [WeakOrder T] : @precedes T _ _ .ascending = ascends := by
  funext a b
  simp [precedes, ascends]

theorem ascends_total [WeakOrder T] (a b : T) : ascends a b || ascends b a := by
  by_cases hab : a > b
  · simp [ascends, WeakOrder.asymm a b hab]
  · simp [ascends, hab]

namespace Iterative

theorem pairsLoop_eq (size span n i : Nat) (buffers : List (Option T) × List (Option T)) :
    pairsLoop size span n i buffers =
      @Datastructures.pairsLoop T (Scratch.noBEq T) _ _ .ascending size span n i buffers := by
  induction n generalizing i buffers with
  | zero => rfl
  | succ n ih =>
    have hloop : pairsLoop (T := T) size span n (i + 2 * span) =
        @Datastructures.pairsLoop T (Scratch.noBEq T) _ _ .ascending size span n (i + 2 * span) :=
      funext (ih (i + 2 * span))
    simp only [pairsLoop, Datastructures.pairsLoop, hloop, Scratch.merge_eq]

theorem spanLoop_eq (size n span : Nat) (buffers : List (Option T) × List (Option T)) :
    spanLoop size n span buffers =
      @Datastructures.spanLoop T (Scratch.noBEq T) _ _ .ascending size n span buffers := by
  induction n generalizing span buffers with
  | zero => rfl
  | succ n ih =>
    have hloop : spanLoop (T := T) size n (span * 2) =
        @Datastructures.spanLoop T (Scratch.noBEq T) _ _ .ascending size n (span * 2) :=
      funext (ih (span * 2))
    simp only [spanLoop, Datastructures.spanLoop, hloop, pairsLoop_eq]

theorem nlognSort_eq (eBuf : List (Option T)) (size : Nat) :
    nlognSort eBuf size = @nlognSortWith T (Scratch.noBEq T) _ _ .ascending ((size + 1) / 2) eBuf size := by
  simp only [nlognSort, nlognSortWith, spanLoop_eq]

/-- The elements in front of the last cut that are greater than one behind it. -/
def overtaken (l : List T) : List T :=
  (l.take (lastSpan l)).filter fun x => (l.drop (lastSpan l)).any fun y => decide (x > y)

theorem overtaken_eq [WeakOrder T] (l : List T) :
    @Datastructures.overtaken T (tieBEq T) _ _ .ascending l = overtaken l := by
  have hgreater : ∀ x y : T, decide (0 < @nlognsortCompare T (tieBEq T) _ _ .ascending x y) =
      decide (x > y) := by
    intro x y
    rw [@inOrder_pos_iff T (tieBEq T) _ _ _ elementOrder_tie, precedes_tie, ascends,
      Bool.not_not]
  simp only [Datastructures.overtaken, overtaken, hgreater]

variable [WeakOrder T] {l : List T}

theorem fits_iff (cap : Nat) (h : 2 ≤ l.length) :
    @PassFits T (Scratch.noBEq T) _ _ .ascending cap
      (@lastRuns T (Scratch.noBEq T) _ _ .ascending l) ↔ (overtaken l).length ≤ cap := by
  have hruns : @lastRuns T (Scratch.noBEq T) _ _ .ascending l =
      @lastRuns T (tieBEq T) _ _ .ascending l := runsAfter_tie _ l
  rw [hruns, passFits_tie, ← overtaken_eq]
  exact @passFits_lastRuns_cap_iff T (tieBEq T) _ _ elementOrder_tie .ascending cap l h

theorem nlognSort_fits (l : List T) (after : List (Option T))
    (hfits : (overtaken l).length ≤ (l.length + 1) / 2) :
    nlognSort (cells l ++ after) l.length = .ok (cells (l.mergeSort ascends) ++ after) := by
  have hall : ∀ j, 2 ^ j < l.length → @PassFits T (Scratch.noBEq T) _ _ .ascending
      ((l.length + 1) / 2) (@runsAfter T (Scratch.noBEq T) _ _ .ascending j l) := by
    intro j hj
    have h : 2 ≤ l.length := lt_of_le_of_lt Nat.one_le_two_pow hj
    exact @passes_fit_of_half_le T (Scratch.noBEq T) _ _ _ _ _ h (by omega)
      ((fits_iff _ h).mpr hfits) j hj
  obtain ⟨k, hk, hsort⟩ := @nlognSortWith_ok T (Scratch.noBEq T) _ _ _ after _ _ hall
  have hstable := @stableSort_runsAfter T (tieBEq T) _ _ .ascending elementOrder_tie _ _ hk
  rw [precedes_tie, ← runsAfter_tie] at hstable
  have hunique := hstable.unique ascends_total (InPlace.stableSortOf_ascends l)
  rw [nlognSort_eq, hsort, hunique]

theorem nlognSort_exceeds (l : List T) (after : List (Option T))
    (hexceeds : (l.length + 1) / 2 < (overtaken l).length) :
    nlognSort (cells l ++ after) l.length = .undef := by
  have h : 2 ≤ l.length := by
    by_contra hsmall
    have hnone : l.drop (lastSpan l) = [] := by
      apply List.drop_of_length_le
      have hpos : 0 < lastSpan l := Nat.two_pow_pos _
      omega
    simp [overtaken, hnone] at hexceeds
  obtain ⟨hlt, -⟩ := lastSpan_lt h
  have hfits := mt (fits_iff _ h).mp (not_le.mpr hexceeds)
  rw [nlognSort_eq]
  exact @nlognSortWith_undef T (Scratch.noBEq T) _ _ _ after l _ _ hlt hfits

/-- The sort stays within its swap space exactly where no more elements are greater than one across
the last cut than the larger half has, and then it leaves the stable sort, as the sort with a
recursion does. -/
theorem iterative_agrees (l : List T) (after : List (Option T)) :
    if (overtaken l).length ≤ (l.length + 1) / 2 then
      ∃ sorted, StableSortOf ascends sorted l ∧
        nlognSort (cells l ++ after) l.length = .ok (cells sorted ++ after) ∧
        Scratch.nlognSort (cells l ++ after) 0 l.length none = .ok (cells sorted ++ after, none)
    else nlognSort (cells l ++ after) l.length = .undef := by
  split
  · next hfits =>
    obtain ⟨ss, hss, hscratch⟩ := Scratch.nlognSort_ok l.length [] after l none le_rfl (by simp)
    obtain rfl : ss = none := by simpa using hss
    exact ⟨l.mergeSort ascends, InPlace.stableSortOf_ascends l, nlognSort_fits l after hfits, hscratch⟩
  · next hexceeds => exact nlognSort_exceeds l after (not_le.mp hexceeds)

theorem iterative_agrees_three : ∃ sorted : List Int, StableSortOf ascends sorted [3, 1, 2] ∧
    nlognSort (cells [3, 1, 2] ++ []) 3 = .ok (cells sorted ++ []) ∧
    Scratch.nlognSort (cells [3, 1, 2] ++ []) 0 3 none = .ok (cells sorted ++ [], none) :=
  iterative_agrees [(3 : Int), 1, 2] []

end Iterative

/-! The sizes at which no array is in danger. -/

namespace Iterative

/-- An array whose elements before the last cut are all greater than those behind it. -/
def crossed (n : Nat) : List Int :=
  List.replicate (2 ^ Nat.log2 (n - 1)) 1 ++ List.replicate (n - 2 ^ Nat.log2 (n - 1)) 0

theorem length_crossed {n : Nat} (h : 2 ≤ n) : (crossed n).length = n := by
  have hle := Nat.log2_self_le (n := n - 1) (by omega)
  simp only [crossed, List.length_append, List.length_replicate]
  omega

theorem overtaken_crossed {n : Nat} (h : 2 ≤ n) :
    (overtaken (crossed n)).length = 2 ^ Nat.log2 (n - 1) := by
  have hle := Nat.log2_self_le (n := n - 1) (by omega)
  have hspan : lastSpan (crossed n) = 2 ^ Nat.log2 (n - 1) := by rw [lastSpan, length_crossed h]
  obtain ⟨m, hm⟩ : ∃ m, n - 2 ^ Nat.log2 (n - 1) = m + 1 := ⟨n - 2 ^ Nat.log2 (n - 1) - 1, by omega⟩
  rw [overtaken, hspan, crossed, hm]
  simp [List.replicate_succ]

theorem overtaken_le (l : List Int) {k : Nat} (hmin : l.length ≤ 2 ^ k) (hmax : 2 ^ k ≤ l.length + 1) :
    (overtaken l).length ≤ (l.length + 1) / 2 := by
  have hfilter : (overtaken l).length ≤ (l.take (lastSpan l)).length := List.length_filter_le _ _
  rw [List.length_take] at hfilter
  by_cases h : 2 ≤ l.length
  · have hlog : Nat.log2 (l.length - 1) < k := (Nat.log2_lt (by omega)).mpr (by omega)
    have hspan : lastSpan l * 2 ≤ 2 ^ k := by
      rw [lastSpan, ← Nat.pow_succ]
      exact Nat.pow_le_pow_right (by omega) hlog
    omega
  · omega

/-- No array of a size makes the sort leave its swap space just if the size or the next number is a
power of two. -/
theorem safe_size_iff (n : Nat) : (∀ l : List Int, l.length = n → nlognSort (cells l) n ≠ .undef) ↔
    ∃ k, n ≤ 2 ^ k ∧ 2 ^ k ≤ n + 1 := by
  constructor
  · intro hsafe
    by_cases h : 2 ≤ n
    · have hlt := Nat.lt_log2_self (n := n - 1)
      refine ⟨Nat.log2 (n - 1) + 1, by omega, ?_⟩
      by_contra hlarge
      have hexceeds : ((crossed n).length + 1) / 2 < (overtaken (crossed n)).length := by
        rw [overtaken_crossed h, length_crossed h]
        rw [Nat.pow_succ] at hlarge
        omega
      have hundef := nlognSort_exceeds (crossed n) [] hexceeds
      rw [List.append_nil, length_crossed h] at hundef
      exact hsafe (crossed n) (length_crossed h) hundef
    · exact ⟨0, by omega, by omega⟩
  · rintro ⟨k, hmin, hmax⟩ l rfl hundef
    have hsort := nlognSort_fits l [] (overtaken_le l hmin hmax)
    rw [List.append_nil, hundef] at hsort
    cases hsort

end Iterative
end WylesLibs.Sorting
