import WylesLibs.Datastructures.SortPasses

/-! What `nlognSort` leaves in the buffer, and how much swap space it needs. -/
namespace WylesLibs.Datastructures
open Library

/-- `==` and `>` are those of a total order; elements that are `==` may be told apart by other
means. -/
class ElementOrder (T : Type) [BEq T] [LT T] : Prop where
  beq_iff : ∀ a b : T, a == b ↔ ¬ a > b ∧ ¬ b > a
  asymm : ∀ a b : T, a > b → ¬ b > a
  trans : ∀ a b c : T, ¬ a > b → ¬ b > c → ¬ a > c

instance (T : Type) [LinearOrder T] [BEq T] [LawfulBEq T] : ElementOrder T where
  beq_iff a b := by rw [beq_iff_eq, not_lt, not_lt, le_antisymm_iff]
  asymm a b h := not_lt.mpr h.le
  trans a b c h₁ h₂ := not_lt.mpr ((not_lt.mp h₁).trans (not_lt.mp h₂))

section
variable {T : Type} [BEq T] [LT T] [DecidableLT T] {sortOrder : ArraySort}

/-- `a` may stand in front of `b` in an array ordered by `sortOrder`. -/
def precedes (sortOrder : ArraySort) (a b : T) : Bool :=
  if sortOrder = .descending then !decide (b > a) else !decide (a > b)

variable [ElementOrder T]

theorem inOrder_eq_precedes (sortOrder : ArraySort) :
    inOrder (T := T) sortOrder = precedes sortOrder := by
  funext a b
  rw [inOrder, nlognsortCompare, precedes]
  by_cases heq : a == b
  · obtain ⟨hab, hba⟩ := (ElementOrder.beq_iff a b).mp heq
    simp [heq, hab, hba]
  · by_cases hab : a > b
    · have hba := ElementOrder.asymm a b hab
      by_cases ho : sortOrder = .descending
      · simp [heq, hab, hba, ho]
      · simp [heq, hab, ho]
    · have hba : b > a := by
        by_contra hba
        exact heq ((ElementOrder.beq_iff a b).mpr ⟨hab, hba⟩)
      by_cases ho : sortOrder = .descending
      · simp [heq, hab, hba, ho]
      · simp [heq, hab, ho]

theorem precedes_trans (a b c : T) (hab : precedes sortOrder a b) (hbc : precedes sortOrder b c) :
    precedes sortOrder a c := by
  by_cases ho : sortOrder = .descending
  · simp only [precedes, ho, if_true, Bool.not_eq_true', decide_eq_false_iff_not] at hab hbc ⊢
    exact ElementOrder.trans c b a hbc hab
  · simp only [precedes, ho, if_false, Bool.not_eq_true', decide_eq_false_iff_not] at hab hbc ⊢
    exact ElementOrder.trans a b c hab hbc

theorem precedes_total (a b : T) : precedes sortOrder a b || precedes sortOrder b a := by
  have h := ElementOrder.asymm a b
  by_cases ho : sortOrder = .descending
  · by_cases hab : a > b
    · simp [precedes, ho, h hab]
    · simp [precedes, ho, hab]
  · by_cases hab : a > b
    · simp [precedes, ho, h hab]
    · simp [precedes, ho, hab]

/-! The runs are stable sorts of consecutive pieces of the contents. -/

/-- The pieces after `n` passes. -/
def piecesAfter (n : Nat) (l : List T) : List (List T) :=
  (joinPairs (· ++ ·))^[n] (l.map fun x => [x])

omit [BEq T] [LT T] [DecidableLT T] [ElementOrder T] in
theorem piecesAfter_succ (n : Nat) (l : List T) :
    piecesAfter (n + 1) l = joinPairs (· ++ ·) (piecesAfter n l) :=
  Function.iterate_succ_apply' _ _ _

omit [BEq T] [LT T] [DecidableLT T] [ElementOrder T] in
theorem flatten_piecesAfter (n : Nat) (l : List T) : (piecesAfter n l).flatten = l := by
  induction n with
  | zero => exact flatten_singletons l
  | succ n ih => rw [piecesAfter_succ, flatten_joinPairs_append, ih]

omit [BEq T] [LT T] [DecidableLT T] [ElementOrder T] in
theorem evenRuns_piecesAfter (n : Nat) (l : List T) : EvenRuns (2 ^ n) (piecesAfter n l) := by
  induction n with
  | zero => exact evenRuns_singletons l
  | succ n ih =>
    rw [piecesAfter_succ, Nat.pow_succ']
    exact evenRuns_joinPairs (fun r s => List.length_append) (Nat.two_pow_pos n) ih

theorem runs_sort_pieces (n : Nat) (l : List T) :
    List.Forall₂ (StableSortOf (precedes sortOrder)) (runsAfter sortOrder n l)
      (piecesAfter n l) := by
  induction n with
  | zero =>
    refine List.forall₂_map_left_iff.mpr (List.forall₂_map_right_iff.mpr ?_)
    exact List.forall₂_same.mpr fun x _ => stableSortOf_self (List.pairwise_singleton _ x)
  | succ n ih =>
    rw [runsAfter_succ, piecesAfter_succ]
    refine forall₂_joinPairs (fun r s u v hr hs => ?_) ih
    rw [inOrder_eq_precedes]
    exact hr.merge precedes_trans precedes_total hs

theorem stableSort_runsAfter {n : Nat} {l : List T} (hn : l.length ≤ 2 ^ n) :
    StableSortOf (precedes sortOrder) (runsAfter sortOrder n l).flatten l := by
  cases l with
  | nil =>
    have hnil := List.length_eq_zero_iff.mp (@length_flatten_runsAfter _ _ _ _ sortOrder n
      ([] : List T))
    rw [hnil]
    exact stableSortOf_self .nil
  | cons x l =>
    have hlen := @length_flatten_runsAfter _ _ _ _ sortOrder n (x :: l)
    have hruns := (@evenRuns_runsAfter _ _ _ _ sortOrder n (x :: l)).eq_singleton
      (Nat.two_pow_pos n) (hlen.trans_le hn) (by rw [hlen]; simp)
    have hpieces := (evenRuns_piecesAfter n (x :: l)).eq_singleton
      (Nat.two_pow_pos n) (by rwa [flatten_piecesAfter]) (by rw [flatten_piecesAfter]; simp)
    have h := @runs_sort_pieces _ _ _ _ sortOrder _ n (x :: l)
    rw [hruns, hpieces, flatten_piecesAfter] at h
    exact (List.forall₂_cons.mp h).1

/-- With room enough in the swap space, `nlognSort` leaves the stable sort of the contents; cells
past the contents stay as they are. -/
theorem nlognSortWith_stable (sortOrder : ArraySort) (l : List T) (after : List (Option T))
    {sizeLeft : Nat} (hroom : l.length ≤ sizeLeft) :
    ∃ sorted, nlognSortWith sortOrder sizeLeft (cells l ++ after) l.length =
        .ok (cells sorted ++ after) ∧
      StableSortOf (precedes sortOrder) sorted l := by
  have hfits : ∀ j, 2 ^ j < l.length → PassFits sortOrder sizeLeft (runsAfter sortOrder j l) := by
    refine fun j hj => passFits_of_length_le fun r hr => ?_
    exact ((evenRuns_runsAfter j l).length_le_of_mem hr).trans (hj.le.trans hroom)
  obtain ⟨k, hk, hsort⟩ := @nlognSortWith_ok _ _ _ _ _ after _ _ hfits
  exact ⟨_, hsort, stableSort_runsAfter hk⟩

theorem nlognSortWith_stable_three :
    ∃ sorted, nlognSortWith .ascending 3 (cells [2, 3, 1] ++ [none]) 3 =
        .ok (cells sorted ++ [none]) ∧
      StableSortOf (precedes .ascending) sorted [2, 3, 1] :=
  nlognSortWith_stable .ascending [2, 3, 1] [none] (by decide)

/-! The swap space that `nlognSort` takes has half as many cells as there are elements. -/

end

section
variable {T : Type} [BEq T] [LT T] [DecidableLT T] {sortOrder : ArraySort}

/-- The length of the left run of the last pass: the largest power of two below the size. -/
def lastSpan (l : List T) : Nat := 2 ^ Nat.log2 (l.length - 1)

/-- The two runs of the last pass. -/
def lastRuns (sortOrder : ArraySort) (l : List T) : List (List T) :=
  runsAfter sortOrder (Nat.log2 (l.length - 1)) l

omit [BEq T] [LT T] [DecidableLT T] in
theorem lastSpan_lt {l : List T} (h : 2 ≤ l.length) :
    lastSpan l < l.length ∧ l.length ≤ 2 * lastSpan l := by
  have hle := Nat.log2_self_le (n := l.length - 1) (by omega)
  have hlt := Nat.lt_log2_self (n := l.length - 1)
  rw [Nat.pow_succ'] at hlt
  unfold lastSpan
  omega

/-- Only in the last pass can a merge displace more elements than there are cells. -/
theorem passes_fit_of_half_le {cap : Nat} {l : List T} (h : 2 ≤ l.length) (hcap : l.length / 2 ≤ cap)
    (hfits : PassFits sortOrder cap (lastRuns sortOrder l)) (j : Nat)
    (hj : 2 ^ j < l.length) : PassFits sortOrder cap (runsAfter sortOrder j l) := by
  obtain ⟨hlt, hle⟩ := lastSpan_lt h
  by_cases heq : j = Nat.log2 (l.length - 1)
  · exact heq ▸ hfits
  · have hlog : j ≤ Nat.log2 (l.length - 1) := (Nat.le_log2 (by omega)).mpr (by omega)
    have hpow : 2 ^ (j + 1) ≤ lastSpan l := Nat.pow_le_pow_right (by omega) (by omega)
    rw [Nat.pow_succ'] at hpow
    refine passFits_of_length_le fun r hr => ?_
    have hr' := (evenRuns_runsAfter j l).length_le_of_mem hr
    omega

theorem passes_fit {l : List T} (h : 2 ≤ l.length)
    (hfits : PassFits sortOrder (l.length / 2) (lastRuns sortOrder l)) (j : Nat)
    (hj : 2 ^ j < l.length) : PassFits sortOrder (l.length / 2) (runsAfter sortOrder j l) :=
  passes_fit_of_half_le h le_rfl hfits j hj

theorem nlognSort_ne_undef_iff (sortOrder : ArraySort) (l : List T) (after : List (Option T))
    (h : 2 ≤ l.length) :
    nlognSort sortOrder (cells l ++ after) l.length ≠ .undef ↔
      PassFits sortOrder (l.length / 2) (lastRuns sortOrder l) := by
  obtain ⟨hlt, -⟩ := lastSpan_lt h
  constructor
  · intro hne
    by_contra hfits
    exact hne (nlognSortWith_undef hlt hfits)
  · intro hfits
    obtain ⟨k, hk, hsort⟩ := @nlognSortWith_ok _ _ _ _ _ after _ _ (passes_fit h hfits)
    simp [nlognSort, hsort]

/-- The elements among the first `lastSpan` that come strictly after one of the others. -/
def overtaken (sortOrder : ArraySort) (l : List T) : List T :=
  (l.take (lastSpan l)).filter fun x =>
    (l.drop (lastSpan l)).any fun y => 0 < nlognsortCompare sortOrder x y

section
variable [ElementOrder T]

theorem lastRuns_eq_pair (sortOrder : ArraySort) {l : List T} (h : 2 ≤ l.length) :
    ∃ r s, lastRuns sortOrder l = [r, s] ∧
      StableSortOf (precedes sortOrder) r (l.take (lastSpan l)) ∧
      StableSortOf (precedes sortOrder) s (l.drop (lastSpan l)) := by
  obtain ⟨hlt, hle⟩ := lastSpan_lt h
  have hpos : 0 < lastSpan l := Nat.two_pow_pos _
  have hlen : (lastRuns sortOrder l).flatten.length = l.length := length_flatten_runsAfter _ l
  have hruns : lastRuns sortOrder l = _ := (evenRuns_runsAfter _ l).eq_pair hpos
    (hlen.trans_le hle) (hlt.trans_eq hlen.symm)
  have hpieces := (evenRuns_piecesAfter (Nat.log2 (l.length - 1)) l).eq_pair hpos
    (by rwa [flatten_piecesAfter]) (by rwa [flatten_piecesAfter])
  have hsort : List.Forall₂ (StableSortOf (precedes sortOrder)) (lastRuns sortOrder l) _ :=
    runs_sort_pieces (Nat.log2 (l.length - 1)) l
  rw [hpieces, flatten_piecesAfter, hruns] at hsort
  refine ⟨_, _, hruns, (List.forall₂_cons.mp hsort).1, ?_⟩
  exact (List.forall₂_cons.mp (List.forall₂_cons.mp hsort).2).1

theorem inOrder_pos_iff (a b : T) :
    decide (0 < nlognsortCompare sortOrder a b) = !precedes sortOrder a b := by
  rw [← inOrder_eq_precedes, inOrder]
  by_cases h : 0 < nlognsortCompare sortOrder a b
  · simp [h]
  · simp [h, not_lt.mp h]

theorem displaced_cons (as bs : List T) (b : T) :
    displaced sortOrder as (b :: bs) = as.dropWhile fun a => precedes sortOrder a b := by
  simp [displaced, rightFirst, inOrder_eq_precedes]

theorem passFits_lastRuns_cap_iff (sortOrder : ArraySort) (cap : Nat) {l : List T}
    (h : 2 ≤ l.length) : PassFits sortOrder cap (lastRuns sortOrder l) ↔
      (overtaken sortOrder l).length ≤ cap := by
  obtain ⟨r, s, hruns, hr, hs⟩ := lastRuns_eq_pair sortOrder h
  obtain ⟨hlt, -⟩ := lastSpan_lt h
  cases s with
  | nil =>
    have hlen := hs.perm.length_eq
    simp at hlen
    omega
  | cons b s =>
    have hcount : (displaced sortOrder r (b :: s)).length = (overtaken sortOrder l).length := by
      rw [displaced_cons, length_dropWhile_le precedes_trans hr hs, overtaken]
      simp only [inOrder_pos_iff]
    rw [hruns, PassFits, hcount]
    simp [PassFits]

theorem passFits_lastRuns_iff (sortOrder : ArraySort) {l : List T} (h : 2 ≤ l.length) :
    PassFits sortOrder (l.length / 2) (lastRuns sortOrder l) ↔
      (overtaken sortOrder l).length ≤ l.length / 2 :=
  passFits_lastRuns_cap_iff sortOrder (l.length / 2) h

/-- Where the swap space is enough, `nlognSort` leaves the stable sort of the contents. -/
theorem nlognSort_stable (l : List T) (after : List (Option T))
    (hfits : (overtaken sortOrder l).length ≤ l.length / 2) :
    ∃ sorted, nlognSort sortOrder (cells l ++ after) l.length = .ok (cells sorted ++ after) ∧
      StableSortOf (precedes sortOrder) sorted l := by
  have hall : ∀ j, 2 ^ j < l.length →
      PassFits sortOrder (l.length / 2) (runsAfter sortOrder j l) := by
    intro j hj
    have h : 2 ≤ l.length := lt_of_le_of_lt Nat.one_le_two_pow hj
    exact passes_fit h ((passFits_lastRuns_iff sortOrder h).mpr hfits) j hj
  obtain ⟨k, hk, hsort⟩ := @nlognSortWith_ok _ _ _ _ _ after _ _ hall
  exact ⟨_, hsort, stableSort_runsAfter hk⟩

end

/-- For any `==` and `>` of the element type, the sort stays within its swap space exactly when the
last merge displaces no more elements than there are cells; when they are those of a total order,
these are the elements that stand in front of a smaller one across the last cut. -/
theorem nlognSort_in_swapSpace_iff (sortOrder : ArraySort) (l : List T)
    (after : List (Option T)) (h : 2 ≤ l.length) :
    (nlognSort sortOrder (cells l ++ after) l.length ≠ .undef ↔
      PassFits sortOrder (l.length / 2) (lastRuns sortOrder l)) ∧
    (ElementOrder T → (nlognSort sortOrder (cells l ++ after) l.length ≠ .undef ↔
      (overtaken sortOrder l).length ≤ l.length / 2)) := by
  have hiff := nlognSort_ne_undef_iff sortOrder l after h
  exact ⟨hiff, fun _ => hiff.trans (passFits_lastRuns_iff sortOrder h)⟩

theorem nlognSort_in_swapSpace_three :
    (nlognSort .ascending (cells [3, 1, 2] ++ []) 3 ≠ .undef ↔
      PassFits .ascending 1 (lastRuns .ascending [3, 1, 2])) ∧
    (ElementOrder Nat → (nlognSort .ascending (cells [3, 1, 2] ++ []) 3 ≠ .undef ↔
      (overtaken .ascending [3, 1, 2]).length ≤ 1)) :=
  nlognSort_in_swapSpace_iff .ascending [3, 1, 2] [] (by decide)

theorem swapSpace_exceeded :
    ¬ ∀ (sortOrder : ArraySort) (l : List Nat), 2 ≤ l.length →
      nlognSort sortOrder (cells l) l.length ≠ .undef :=
  fun h => h .ascending [2, 3, 1] (by decide) rfl

end
end WylesLibs.Datastructures
