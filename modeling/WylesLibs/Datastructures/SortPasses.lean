import WylesLibs.Datastructures.MergeInPlace

/-! The loops of `nlognSort` merge the runs of the buffer two at a time, until there is one. -/
namespace WylesLibs.Datastructures
open Library
variable {T : Type} [BEq T] [LT T] [DecidableLT T] {sortOrder : ArraySort}

def mergeRuns (sortOrder : ArraySort) : List (List T) → List (List T) :=
  joinPairs fun r s => r.merge s (inOrder sortOrder)

/-- No merge of the pass displaces more elements than the swap space has cells. -/
def PassFits (sortOrder : ArraySort) (cap : Nat) : List (List T) → Prop
  | r :: s :: rs => (displaced sortOrder r s).length ≤ cap ∧ PassFits sortOrder cap rs
  | _ => True

theorem length_displaced_le (as bs : List T) :
    (displaced sortOrder as bs).length ≤ as.length :=
  (List.dropWhile_suffix _).length_le

theorem passFits_of_length_le {cap : Nat} {rs : List (List T)}
    (h : ∀ r ∈ rs, r.length ≤ cap) : PassFits sortOrder cap rs := by
  induction rs using joinPairs.induct with
  | case1 r s rs ih =>
    refine ⟨(length_displaced_le r s).trans (h r (by simp)), ih fun t ht => h t ?_⟩
    exact List.mem_cons_of_mem r (List.mem_cons_of_mem s ht)
  | case2 rs hne =>
    cases rs with
    | nil => trivial
    | cons r rs =>
      cases rs with
      | nil => trivial
      | cons s rs => exact absurd rfl (hne r s rs)

omit [BEq T] [LT T] [DecidableLT T] in
/-- The right run of a pair begins where the left one ends, and goes on to the end of the pass or
for `span` elements. -/
theorem rightSize_eq {size span i : Nat} {r s : List T} {rs : List (List T)}
    (h : EvenRuns span (r :: s :: rs)) (hsize : size = i + (r :: s :: rs).flatten.length) :
    (if i + span + span > size then size - (i + span) else span) = s.length := by
  have hr := h.1
  cases rs with
  | nil =>
    have hs := h.tail.2
    simp at hsize
    split <;> omega
  | cons t rs =>
    have hs := h.tail.1
    simp at hsize
    rw [if_neg (by omega), hs]

section
variable {after swapSpace : List (Option T)} {done : List T} {rs : List (List T)}
  {size span i n : Nat}

/-- One turn over the buffer, when there are two runs left or more. -/
theorem pairsLoop_cons_cons {r s : List T} (hspan : 0 < span)
    (h : EvenRuns span (r :: s :: rs))
    (hsize : size = done.length + (r :: s :: rs).flatten.length) :
    pairsLoop sortOrder size span (n + 1) done.length
        (cells done ++ (cells (r :: s :: rs).flatten ++ after), swapSpace) =
      (nlognsortMerge sortOrder
        (cells done ++ (cells r ++ (cells s ++ (cells rs.flatten ++ after))))
        (cells done).length r.length ((cells done).length + r.length) s.length swapSpace).bind
          (pairsLoop sortOrder size span n (done.length + 2 * span)) := by
  have hs := h.tail.head_pos hspan
  have hlt : done.length + span < size := by
    have hr := h.1
    simp at hsize
    omega
  rw [pairsLoop, if_pos (by omega), if_pos hlt]
  simp only [rightSize_eq h hsize]
  simp [h.1]

theorem pairsLoop_done (h : size ≤ i) (buffers : List (Option T) × List (Option T)) :
    pairsLoop sortOrder size span n i buffers = .ok buffers := by
  cases n with
  | zero => simp [pairsLoop, h]
  | succ n => simp [pairsLoop, h]

theorem pairsLoop_singleton {r : List T} (h : EvenRuns span [r])
    (hsize : size = done.length + r.length) (buffers : List (Option T) × List (Option T)) :
    pairsLoop sortOrder size span (n + 1) done.length buffers = .ok buffers := by
  have hr := h.2
  have hpos := h.1
  rw [pairsLoop, if_pos (by omega), if_neg (by omega), Outcome.bind_ok,
    pairsLoop_done (by omega)]

/-- Where the turn after a pair begins. -/
theorem next_pair (sortOrder : ArraySort) (done : List T) {r s : List T} {rs : List (List T)}
    (h : EvenRuns span (r :: s :: rs)) :
    (done ++ r.merge s (inOrder sortOrder)).length ≤ done.length + 2 * span ∧
      (rs ≠ [] → done.length + 2 * span = (done ++ r.merge s (inOrder sortOrder)).length) := by
  have hr := h.1
  have hs := h.tail.head
  rw [List.length_append, List.length_merge]
  refine ⟨by omega, fun hne => ?_⟩
  cases rs with
  | nil => exact absurd rfl hne
  | cons t rs =>
    have hs' := h.tail.1
    omega

theorem pairsLoop_ok (hspan : 0 < span) (h : EvenRuns span rs)
    (hsize : size = done.length + rs.flatten.length) (hn : rs.length ≤ n)
    (hi : done.length ≤ i ∧ (rs ≠ [] → i = done.length))
    (hfits : PassFits sortOrder swapSpace.length rs) :
    ∃ swapSpace', swapSpace'.length = swapSpace.length ∧
      pairsLoop sortOrder size span n i (cells done ++ (cells rs.flatten ++ after), swapSpace) =
      .ok (cells done ++ (cells (mergeRuns sortOrder rs).flatten ++ after), swapSpace') := by
  induction n generalizing rs done i swapSpace with
  | zero =>
    obtain rfl : rs = [] := List.length_eq_zero_iff.mp (by omega)
    exact ⟨swapSpace, rfl, pairsLoop_done (by simpa [hsize] using hi.1) _⟩
  | succ n ih =>
    cases rs with
    | nil => exact ⟨swapSpace, rfl, pairsLoop_done (by simpa [hsize] using hi.1) _⟩
    | cons r rs =>
      obtain rfl := hi.2 (List.cons_ne_nil r rs)
      cases rs with
      | nil => exact ⟨swapSpace, rfl, pairsLoop_singleton h (by simpa using hsize) _⟩
      | cons s rs =>
        obtain ⟨swap₁, hswap₁, hmerge⟩ := nlognsortMerge_ok (cells done)
          (cells rs.flatten ++ after) hfits.1
        have hfits' : PassFits sortOrder swap₁.length rs := by
          rw [hswap₁]
          exact hfits.2
        obtain ⟨swap₂, hswap₂, hloop⟩ := ih h.tail.tail (by simp at hsize ⊢; omega)
          (by simp at hn; omega) (next_pair sortOrder done h) hfits'
        refine ⟨swap₂, hswap₂.trans hswap₁, ?_⟩
        rw [pairsLoop_cons_cons hspan h hsize, hmerge, Outcome.bind_ok]
        simpa [mergeRuns] using hloop

theorem pairsLoop_undef (hspan : 0 < span) (h : EvenRuns span rs)
    (hsize : size = done.length + rs.flatten.length) (hn : rs.length ≤ n)
    (hi : done.length ≤ i ∧ (rs ≠ [] → i = done.length))
    (hfits : ¬ PassFits sortOrder swapSpace.length rs) :
    pairsLoop sortOrder size span n i (cells done ++ (cells rs.flatten ++ after), swapSpace) =
      .undef := by
  induction n generalizing rs done i swapSpace with
  | zero =>
    obtain rfl : rs = [] := List.length_eq_zero_iff.mp (by omega)
    exact absurd trivial hfits
  | succ n ih =>
    cases rs with
    | nil => exact absurd trivial hfits
    | cons r rs =>
      obtain rfl := hi.2 (List.cons_ne_nil r rs)
      cases rs with
      | nil => exact absurd trivial hfits
      | cons s rs =>
        rw [pairsLoop_cons_cons hspan h hsize]
        by_cases hd : (displaced sortOrder r s).length ≤ swapSpace.length
        · obtain ⟨swap₁, hswap₁, hmerge⟩ := nlognsortMerge_ok (cells done)
            (cells rs.flatten ++ after) hd
          have hfits' : ¬ PassFits sortOrder swap₁.length rs := by
            rw [hswap₁]
            exact fun hrest => hfits ⟨hd, hrest⟩
          have hloop := ih h.tail.tail (by simp at hsize ⊢; omega) (by simp at hn; omega)
            (next_pair sortOrder done h) hfits'
          rw [hmerge, Outcome.bind_ok]
          simpa using hloop
        · rw [nlognsortMerge_undef _ _ (not_le.mp hd), Outcome.bind_undef]

end

/-! The passes. -/

/-- The runs after `n` passes over single elements. -/
def runsAfter (sortOrder : ArraySort) (n : Nat) (l : List T) : List (List T) :=
  (mergeRuns sortOrder)^[n] (l.map fun x => [x])

theorem runsAfter_succ (n : Nat) (l : List T) :
    runsAfter sortOrder (n + 1) l = mergeRuns sortOrder (runsAfter sortOrder n l) :=
  Function.iterate_succ_apply' _ _ _

theorem evenRuns_runsAfter (n : Nat) (l : List T) :
    EvenRuns (2 ^ n) (runsAfter sortOrder n l) := by
  induction n with
  | zero => exact evenRuns_singletons l
  | succ n ih =>
    rw [runsAfter_succ, Nat.pow_succ']
    exact evenRuns_joinPairs (fun r s => List.length_merge _ r s) (Nat.two_pow_pos n) ih

theorem length_flatten_runsAfter (n : Nat) (l : List T) :
    (runsAfter sortOrder n l).flatten.length = l.length := by
  induction n with
  | zero => exact congrArg List.length (flatten_singletons l)
  | succ n ih =>
    rw [runsAfter_succ, ← ih]
    exact length_flatten_joinPairs (fun r s => List.length_merge _ r s) _

section
variable {after swapSpace : List (Option T)} {l : List T} {k n : Nat}

theorem pass_ok (hfits : PassFits sortOrder swapSpace.length (runsAfter sortOrder k l)) :
    ∃ swapSpace', swapSpace'.length = swapSpace.length ∧
      pairsLoop sortOrder l.length (2 ^ k) l.length 0
        (cells (runsAfter sortOrder k l).flatten ++ after, swapSpace) =
      .ok (cells (runsAfter sortOrder (k + 1) l).flatten ++ after, swapSpace') := by
  have heven := @evenRuns_runsAfter _ _ _ _ sortOrder k l
  have hlen := @length_flatten_runsAfter _ _ _ _ sortOrder k l
  have hpos := Nat.two_pow_pos k
  rw [runsAfter_succ]
  exact @pairsLoop_ok _ _ _ _ _ _ _ [] _ _ _ _ _ hpos heven (by simp [hlen])
    (hlen ▸ heven.length_le hpos) (by simp) hfits

theorem pass_undef (hfits : ¬ PassFits sortOrder swapSpace.length (runsAfter sortOrder k l)) :
    pairsLoop sortOrder l.length (2 ^ k) l.length 0
      (cells (runsAfter sortOrder k l).flatten ++ after, swapSpace) = .undef := by
  have heven := @evenRuns_runsAfter _ _ _ _ sortOrder k l
  have hlen := @length_flatten_runsAfter _ _ _ _ sortOrder k l
  have hpos := Nat.two_pow_pos k
  exact @pairsLoop_undef _ _ _ _ _ _ _ [] _ _ _ _ _ hpos heven (by simp [hlen])
    (hlen ▸ heven.length_le hpos) (by simp) hfits

theorem spanLoop_ok (hn : l.length ≤ 2 ^ (k + n))
    (hfits : ∀ j, 2 ^ j < l.length →
      PassFits sortOrder swapSpace.length (runsAfter sortOrder j l)) :
    ∃ k' swapSpace', l.length ≤ 2 ^ k' ∧
      spanLoop sortOrder l.length n (2 ^ k)
        (cells (runsAfter sortOrder k l).flatten ++ after, swapSpace) =
      .ok (cells (runsAfter sortOrder k' l).flatten ++ after, swapSpace') := by
  induction n generalizing k swapSpace with
  | zero =>
    have hk : l.length ≤ 2 ^ k := hn
    refine ⟨k, swapSpace, hk, ?_⟩
    rw [spanLoop, if_neg (not_lt.mpr hk)]
  | succ n ih =>
    rw [spanLoop]
    by_cases hlt : 2 ^ k < l.length
    · obtain ⟨swap₁, hswap₁, hpass⟩ := @pass_ok _ _ _ _ _ after _ _ _ (hfits k hlt)
      rw [if_pos hlt, hpass, Outcome.bind_ok, ← Nat.pow_succ]
      refine ih (by rwa [Nat.succ_add_eq_add_succ]) ?_
      rwa [hswap₁]
    · refine ⟨k, swapSpace, not_lt.mp hlt, ?_⟩
      rw [if_neg hlt]

theorem spanLoop_undef {j : Nat} (hkj : k ≤ j) (hn : j < k + n) (hj : 2 ^ j < l.length)
    (hfits : ¬ PassFits sortOrder swapSpace.length (runsAfter sortOrder j l)) :
    spanLoop sortOrder l.length n (2 ^ k)
      (cells (runsAfter sortOrder k l).flatten ++ after, swapSpace) = .undef := by
  induction n generalizing k swapSpace with
  | zero => omega
  | succ n ih =>
    have hlt : 2 ^ k < l.length := lt_of_le_of_lt (Nat.pow_le_pow_right (by omega) hkj) hj
    rw [spanLoop, if_pos hlt]
    by_cases hk : PassFits sortOrder swapSpace.length (runsAfter sortOrder k l)
    · have hne : k ≠ j := fun heq => hfits (heq ▸ hk)
      obtain ⟨swap₁, hswap₁, hpass⟩ := @pass_ok _ _ _ _ _ after _ _ _ hk
      rw [hpass, Outcome.bind_ok, ← Nat.pow_succ]
      refine ih (by omega) (by omega) ?_
      rwa [hswap₁]
    · rw [pass_undef hk, Outcome.bind_undef]

/-! The whole sort. -/

theorem nlognSortWith_ok {sizeLeft : Nat} (hfits : ∀ j, 2 ^ j < l.length →
      PassFits sortOrder sizeLeft (runsAfter sortOrder j l)) :
    ∃ k, l.length ≤ 2 ^ k ∧
      nlognSortWith sortOrder sizeLeft (cells l ++ after) l.length =
      .ok (cells (runsAfter sortOrder k l).flatten ++ after) := by
  have hstart : (runsAfter sortOrder 0 l).flatten = l := flatten_singletons l
  by_cases h1 : l.length ≤ 1
  · exact ⟨0, h1, by rw [nlognSortWith, if_pos h1, hstart]⟩
  · obtain ⟨k, swap₁, hk, hloop⟩ := @spanLoop_ok _ _ _ _ sortOrder after
      (newCArray T sizeLeft) l 0 l.length
      (by simpa using Nat.lt_two_pow_self.le) (by simpa using hfits)
    refine ⟨k, hk, ?_⟩
    rw [nlognSortWith, if_neg h1]
    rw [hstart, Nat.pow_zero] at hloop
    rw [hloop, Outcome.bind_ok]

theorem nlognSortWith_undef {sizeLeft j : Nat} (hj : 2 ^ j < l.length)
    (hfits : ¬ PassFits sortOrder sizeLeft (runsAfter sortOrder j l)) :
    nlognSortWith sortOrder sizeLeft (cells l ++ after) l.length = .undef := by
  have hstart : (runsAfter sortOrder 0 l).flatten = l := flatten_singletons l
  have h1 : ¬ l.length ≤ 1 := not_le.mpr (lt_of_le_of_lt (Nat.one_le_two_pow) hj)
  have hloop := @spanLoop_undef _ _ _ _ sortOrder after (newCArray T sizeLeft) l 0 l.length j
    (by omega)
    (by have := @Nat.lt_two_pow_self j; omega) hj (by simpa using hfits)
  rw [hstart, Nat.pow_zero] at hloop
  rw [nlognSortWith, if_neg h1, hloop, Outcome.bind_undef]

end
end WylesLibs.Datastructures
