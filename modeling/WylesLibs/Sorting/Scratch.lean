import WylesLibs.Datastructures.MergeInPlace

/-! The merge sort with a swap space of its own. Sizes are far below the integers that a `double`
tells apart, so `ceil(size/2.0)` is the larger half. -/
namespace WylesLibs.Sorting
open Library Datastructures
variable {T : Type} [LT T] [DecidableLT T]

/-- `>` is that of a total order, in which elements may be equal and yet be told apart. -/
class WeakOrder (T : Type) [LT T] : Prop where
  asymm : ∀ a b : T, a > b → ¬ b > a
  trans : ∀ a b c : T, ¬ a > b → ¬ b > c → ¬ a > c

instance (T : Type) [LinearOrder T] : WeakOrder T where
  asymm _ _ h := not_lt.mpr h.le
  trans _ _ _ h₁ h₂ := not_lt.mpr ((not_lt.mp h₁).trans (not_lt.mp h₂))

/-- `a` may stand in front of `b`. -/
def ascends (a b : T) : Bool := !decide (a > b)

namespace Scratch

/-- `j < sizeB && left_compare > B[j]` -/
def rightWins (right sizeB : Nat) (leftCompare : T) (m : Merging T) : Outcome Bool :=
  if m.j < sizeB then
    (load m.eBuf (right + m.j)).bind fun b => .ok (decide (leftCompare > b))
  else
    .ok false

/-- The body of the first loop; `left` and `right` are the positions of `A` and `B`. -/
def leftTurn (left right sizeB : Nat) (m : Merging T) : Outcome (Merging T) :=
  (load m.eBuf (left + m.i)).bind fun first =>
  (if m.holds then load m.swapSpace m.swapSpacePop else .ok first).bind fun leftCompare =>
  (rightWins right sizeB leftCompare m).bind fun wins =>
  if wins then
    (load m.eBuf (left + m.i)).bind fun swap =>
    (load m.eBuf (right + m.j)).bind fun b =>
    (addElement m.eBuf (left + m.i) b).bind fun eBuf =>
    (addElement m.swapSpace m.swapSpacePush swap).bind fun swapSpace =>
    .ok { m with
      eBuf, swapSpace, swapSpacePush := m.swapSpacePush + 1, j := m.j + 1, i := m.i + 1 }
  else if m.holds then
    (load m.eBuf (left + m.i)).bind fun swap =>
    (load m.swapSpace m.swapSpacePop).bind fun el =>
    (addElement m.eBuf (left + m.i) el).bind fun eBuf =>
    (addElement m.swapSpace m.swapSpacePush swap).bind fun swapSpace =>
    .ok { m with
      eBuf, swapSpace, swapSpacePop := m.swapSpacePop + 1, swapSpacePush := m.swapSpacePush + 1,
      i := m.i + 1 }
  else
    .ok { m with i := m.i + 1 }

def leftLoop (left right sizeB : Nat) : Nat → Merging T → Outcome (Merging T)
  | 0, m => .ok m
  | n + 1, m => (leftTurn left right sizeB m).bind (leftLoop left right sizeB n)

/-- The body of the second loop. -/
def rightTurn (left right sizeB : Nat) (m : Merging T) : Outcome (Merging T) :=
  (load m.swapSpace m.swapSpacePop).bind fun leftCompare =>
  (rightWins right sizeB leftCompare m).bind fun wins =>
  if wins then
    (load m.eBuf (right + m.j)).bind fun b =>
    (addElement m.eBuf (left + m.i) b).bind fun eBuf =>
    .ok { m with eBuf, j := m.j + 1, i := m.i + 1 }
  else
    (load m.swapSpace m.swapSpacePop).bind fun el =>
    (addElement m.eBuf (left + m.i) el).bind fun eBuf =>
    .ok { m with eBuf, swapSpacePop := m.swapSpacePop + 1, i := m.i + 1 }

def rightLoop (left right sizeB : Nat) : Nat → Merging T → Outcome (Merging T)
  | 0, m => if m.holds then .timeout else .ok m
  | n + 1, m =>
    if m.holds then
      (rightTurn left right sizeB m).bind (rightLoop left right sizeB n)
    else
      .ok m

def merge (eBuf : List (Option T)) (left sizeA right sizeB : Nat) (swapSpace : List (Option T)) :
    Outcome (List (Option T) × List (Option T)) :=
  (leftLoop left right sizeB sizeA
    { eBuf, swapSpace, swapSpacePush := 0, swapSpacePop := 0, i := 0, j := 0 }).bind fun m =>
  (rightLoop left right sizeB (sizeA + sizeB) m).bind fun m =>
  .ok (m.eBuf, m.swapSpace)

/-- The array is at `left`. Without a swap space one is made, and deleted at the end. -/
def nlognSort (eBuf : List (Option T)) (left size : Nat) (ss : Option (List (Option T))) :
    Outcome (List (Option T) × Option (List (Option T))) :=
  if size ≤ 1 then
    .ok (eBuf, ss)
  else
    let sizeLeft := (size + 1) / 2
    let sizeRight := size - sizeLeft
    let swapSpace := ss.getD (newCArray T sizeLeft)
    (nlognSort eBuf left sizeLeft (some swapSpace)).bind fun (eBuf, swapSpace) =>
    (nlognSort eBuf (left + sizeLeft) sizeRight swapSpace).bind fun (eBuf, swapSpace) =>
    (merge eBuf left sizeLeft (left + sizeLeft) sizeRight (swapSpace.getD [])).bind
      fun (eBuf, swapSpace) => .ok (eBuf, if ss.isSome then some swapSpace else none)
termination_by size

/-! The merge is that of `Array::sort`, where no two elements are `==`. -/

/-- No two elements are `==`. -/
@[reducible] def noBEq (T : Type) : BEq T := ⟨fun _ _ => false⟩

theorem nlognsortCompare_noBEq (a b : T) :
    @nlognsortCompare T (noBEq T) _ _ .ascending a b = if a > b then 1 else -1 := rfl

theorem rightWins_eq (right sizeB : Nat) (x : T) (m : Merging T) :
    rightWins right sizeB x m =
      @Datastructures.rightWins T (noBEq T) _ _ .ascending right sizeB x m := by
  have hcompare : ∀ b : T, decide (x > b) =
      decide (0 < @nlognsortCompare T (noBEq T) _ _ .ascending x b) := by
    intro b
    rw [nlognsortCompare_noBEq]
    by_cases hxb : x > b
    · simp [hxb]
    · simp [hxb]
  simp only [rightWins, Datastructures.rightWins, hcompare]

theorem leftTurn_eq (left right sizeB : Nat) (m : Merging T) :
    leftTurn left right sizeB m =
      @Datastructures.leftTurn T (noBEq T) _ _ .ascending left right sizeB m := by
  simp only [leftTurn, Datastructures.leftTurn, rightWins_eq]

theorem leftLoop_eq (left right sizeB n : Nat) (m : Merging T) :
    leftLoop left right sizeB n m =
      @Datastructures.leftLoop T (noBEq T) _ _ .ascending left right sizeB n m := by
  induction n generalizing m with
  | zero => rfl
  | succ n ih =>
    have hloop : leftLoop (T := T) left right sizeB n =
        @Datastructures.leftLoop T (noBEq T) _ _ .ascending left right sizeB n := funext ih
    rw [leftLoop, leftTurn_eq, hloop]
    rfl

theorem rightTurn_eq (left right sizeB : Nat) (m : Merging T) :
    rightTurn left right sizeB m =
      @Datastructures.rightTurn T (noBEq T) _ _ .ascending left right sizeB m := by
  simp only [rightTurn, Datastructures.rightTurn, rightWins_eq]

theorem rightLoop_eq (left right sizeB n : Nat) (m : Merging T) :
    rightLoop left right sizeB n m =
      @Datastructures.rightLoop T (noBEq T) _ _ .ascending left right sizeB n m := by
  induction n generalizing m with
  | zero => rfl
  | succ n ih =>
    have hloop : rightLoop (T := T) left right sizeB n =
        @Datastructures.rightLoop T (noBEq T) _ _ .ascending left right sizeB n := funext ih
    rw [rightLoop, rightTurn_eq, hloop]
    rfl

theorem merge_eq (eBuf swapSpace : List (Option T)) (left sizeA right sizeB : Nat) :
    merge eBuf left sizeA right sizeB swapSpace =
      @nlognsortMerge T (noBEq T) _ _ .ascending eBuf left sizeA right sizeB swapSpace := by
  simp only [merge, nlognsortMerge, leftLoop_eq, rightLoop_eq]

theorem inOrder_eq_ascends : @inOrder T (noBEq T) _ _ .ascending = ascends := by
  funext a b
  have hcompare : @inOrder T (noBEq T) _ _ .ascending a b =
      decide ((if a > b then (1 : Int) else -1) ≤ 0) := rfl
  rw [hcompare]
  by_cases hab : a > b
  · simp [ascends, hab]
  · simp [ascends, hab]

theorem merge_ok (before after : List (Option T)) {as bs : List T} {swapSpace : List (Option T)}
    (h : as.length ≤ swapSpace.length) :
    ∃ swapSpace', swapSpace'.length = swapSpace.length ∧
      merge (before ++ (cells as ++ (cells bs ++ after))) before.length as.length
        (before.length + as.length) bs.length swapSpace =
      .ok (before ++ (cells (as.merge bs ascends) ++ after), swapSpace') := by
  have hroom : (@displaced T (noBEq T) _ _ .ascending as bs).length ≤ swapSpace.length :=
    (List.dropWhile_suffix _).length_le.trans h
  rw [merge_eq, ← inOrder_eq_ascends]
  exact @nlognsortMerge_ok T (noBEq T) _ _ .ascending before after swapSpace as bs hroom

/-! The sort. -/

/-- Any swap space that is given is large enough for the larger half. -/
theorem nlognSort_ok (n : Nat) (before after : List (Option T)) (l : List T)
    (ss : Option (List (Option T))) (hn : l.length ≤ n)
    (hss : ∀ s, ss = some s → (l.length + 1) / 2 ≤ s.length) :
    ∃ ss', ss'.map List.length = ss.map List.length ∧
      nlognSort (before ++ (cells l ++ after)) before.length l.length ss =
        .ok (before ++ (cells (l.mergeSort ascends) ++ after), ss') := by
  induction n generalizing before after l ss with
  | zero =>
    obtain rfl : l = [] := List.length_eq_zero_iff.mp (by omega)
    refine ⟨ss, rfl, ?_⟩
    rw [nlognSort, if_pos (by simp), List.mergeSort_nil]
  | succ n ih =>
    by_cases hsmall : l.length ≤ 1
    · refine ⟨ss, rfl, ?_⟩
      rw [nlognSort, if_pos hsmall, mergeSort_of_length_le_one _ hsmall]
    · obtain ⟨us, vs, hus, hvs, hl⟩ : ∃ us vs, us = l.take ((l.length + 1) / 2) ∧
          vs = l.drop ((l.length + 1) / 2) ∧ l = us ++ vs :=
        ⟨_, _, rfl, rfl, (List.take_append_drop _ l).symm⟩
      have hlenUs : us.length = (l.length + 1) / 2 := by
        rw [hus, List.length_take]
        omega
      have hlenVs : vs.length = l.length - (l.length + 1) / 2 := by rw [hvs, List.length_drop]
      have hsort : l.mergeSort ascends = (us.mergeSort ascends).merge (vs.mergeSort ascends) ascends := by
        rw [mergeSort_halves ascends (by omega), hus, hvs]
      obtain ⟨s, hs⟩ : ∃ s, s = ss.getD (newCArray T ((l.length + 1) / 2)) := ⟨_, rfl⟩
      have hroom : (l.length + 1) / 2 ≤ s.length := by
        cases ss with
        | none => simp [hs]
        | some s' => simpa [hs] using hss s' rfl
      -- the left half
      obtain ⟨ss₁, hss₁, hleft⟩ := ih before (cells vs ++ after) us (some s) (by omega)
        (fun s' hs' => by obtain rfl := Option.some.inj hs'; omega)
      obtain ⟨s₁, rfl⟩ : ∃ s₁, ss₁ = some s₁ := by
        cases ss₁ with
        | none => simp at hss₁
        | some s₁ => exact ⟨s₁, rfl⟩
      have hlen₁ : s₁.length = s.length := by simpa using hss₁
      -- the right half, behind the sorted left one
      obtain ⟨ss₂, hss₂, hright⟩ := ih (before ++ cells (us.mergeSort ascends)) after vs (some s₁)
        (by omega) (fun s' hs' => by obtain rfl := Option.some.inj hs'; omega)
      obtain ⟨s₂, rfl⟩ : ∃ s₂, ss₂ = some s₂ := by
        cases ss₂ with
        | none => simp at hss₂
        | some s₂ => exact ⟨s₂, rfl⟩
      have hlen₂ : s₂.length = s₁.length := by simpa using hss₂
      obtain ⟨s₃, hlen₃, hmerge⟩ := @merge_ok T _ _ before after (us.mergeSort ascends)
        (vs.mergeSort ascends) s₂ (by rw [List.length_mergeSort]; omega)
      simp only [List.length_append, length_cells, List.length_mergeSort, List.append_assoc]
        at hright hmerge
      refine ⟨if ss.isSome then some s₃ else none, ?_, ?_⟩
      · cases ss with
        | none => rfl
        | some s' =>
          have hs' : s = s' := hs
          simp [hlen₃, hlen₂, hlen₁, hs']
      · have hcells : cells l ++ after = cells us ++ (cells vs ++ after) := by
          rw [hl, cells_append, List.append_assoc]
        rw [nlognSort, if_neg hsmall]
        dsimp only
        rw [← hs, hcells, ← hlenUs, hleft, Outcome.bind_ok]
        dsimp only
        rw [hlenUs, ← hlenVs, ← hlenUs, hright, Outcome.bind_ok]
        dsimp only
        rw [Option.getD_some, hmerge, Outcome.bind_ok, hsort]

end Scratch
end WylesLibs.Sorting
