import WylesLibs.Datastructures.Sort

/-! `nlognsortMerge` writes the merge of the two runs over them, as long as the swap space has room
for the left elements that it displaces. -/
namespace WylesLibs.Datastructures
open Library
variable {T : Type}

/-- What is merged is in `out`; the left elements still to come are `queue` and then `as`, the
right ones `bs`. The cells in front of `bs` wait for the left elements. -/
def midMerge (before after : List (Option T)) (out queue as : List T) (holes : List (Option T))
    (gone : Nat) (bs : List T) (used free : List (Option T)) : Merging T where
  eBuf := before ++ (cells out ++ (cells as ++ (holes ++ (cells bs ++ after))))
  swapSpace := used ++ (cells queue ++ free)
  swapSpacePush := used.length + queue.length
  swapSpacePop := used.length
  i := out.length
  j := gone

/-- One of the free cells is taken, if there is one. -/
def takeCell {β : Type} (free : List (Option T)) (f : List (Option T) → Outcome β) : Outcome β :=
  match free with
  | [] => .undef
  | _ :: free => f free

theorem takeCell_bind {β γ : Type} (free : List (Option T))
    (f : List (Option T) → Outcome β) (g : β → Outcome γ) :
    (takeCell free f).bind g = takeCell free fun free => (f free).bind g := by
  cases free with
  | nil => rfl
  | cons c free => rfl

section
variable {before after used free holes : List (Option T)} {out queue as bs : List T} {a x : T}
  {left right gone sizeB : Nat}

@[simp] theorem midMerge_i :
    (midMerge before after out queue as holes gone bs used free).i = out.length := rfl

@[simp] theorem midMerge_j :
    (midMerge before after out queue as holes gone bs used free).j = gone := rfl

@[simp] theorem midMerge_push :
    (midMerge before after out queue as holes gone bs used free).swapSpacePush =
      used.length + queue.length := rfl

@[simp] theorem midMerge_pop :
    (midMerge before after out queue as holes gone bs used free).swapSpacePop = used.length := rfl

@[simp] theorem holds_midMerge :
    (midMerge before after out queue as holes gone bs used free).holds = !queue.isEmpty := by
  cases queue with
  | nil => simp [Merging.holds]
  | cons x queue => simp [Merging.holds]

theorem load_left (hl : left = before.length) :
    load (midMerge before after out queue (a :: as) holes gone bs used free).eBuf (left + out.length) =
      .ok a :=
  load_of_eq (before ++ cells out) (cells as ++ (holes ++ (cells bs ++ after)))
    (by simp [midMerge]) (by simp [hl])

theorem load_right (hr : right + gone = before.length + out.length + as.length + holes.length) :
    load (midMerge before after out queue as holes gone (x :: bs) used free).eBuf
      (right + gone) = .ok x :=
  load_of_eq (before ++ (cells out ++ (cells as ++ holes))) (cells bs ++ after)
    (by simp [midMerge]) (by simp [hr]; omega)

theorem load_queue :
    load (midMerge before after out (x :: queue) as holes gone bs used free).swapSpace used.length =
      .ok x :=
  load_of_eq used (cells queue ++ free) (by simp [midMerge]) rfl

/-- The left element that is compared is the first of the queue and what is left of `A`. -/
theorem load_compared (hx : (queue ++ [a]).head? = some x) :
    (if (midMerge before after out queue as holes gone bs used free).holds then
      load (midMerge before after out queue as holes gone bs used free).swapSpace used.length
    else
      .ok a) = .ok x := by
  cases queue with
  | nil =>
    obtain rfl : a = x := by simpa using hx
    simp
  | cons y queue =>
    obtain rfl : y = x := by simpa using hx
    simp [load_queue]

theorem addElement_left (hl : left = before.length) (el : T) :
    addElement (midMerge before after out queue (a :: as) holes gone bs used free).eBuf
        (left + out.length) el =
      .ok (before ++ (cells (out ++ [el]) ++ (cells as ++ (holes ++ (cells bs ++ after))))) := by
  have h := @addElement_of_eq _
    (midMerge before after out queue (a :: as) holes gone bs used free).eBuf
    (before ++ cells out) (cells as ++ (holes ++ (cells bs ++ after)))
    (left + out.length) el (some a) (by simp [midMerge]) (by simp [hl])
  simpa using h

theorem addElement_hole (c : Option T) (hl : left = before.length) (el : T) :
    addElement (midMerge before after out queue [] (c :: holes) gone bs used free).eBuf
        (left + out.length) el =
      .ok (before ++ (cells (out ++ [el]) ++ (holes ++ (cells bs ++ after)))) := by
  have h := @addElement_of_eq _
    (midMerge before after out queue [] (c :: holes) gone bs used free).eBuf
    (before ++ cells out) (holes ++ (cells bs ++ after)) (left + out.length) el c
    (by simp [midMerge]) (by simp [hl])
  simpa using h

theorem addElement_queue (el : T) :
    addElement (midMerge before after out queue as holes gone bs used free).swapSpace
        (used.length + queue.length) el =
      takeCell free fun free => .ok (used ++ (cells (queue ++ [el]) ++ free)) := by
  cases free with
  | nil => exact addElement_of_le (by simp [midMerge])
  | cons c free =>
    have h := @addElement_of_eq _
      (midMerge before after out queue as holes gone bs used (c :: free)).swapSpace
      (used ++ cells queue) free (used.length + queue.length) el c
      (by simp [midMerge]) (by simp)
    simpa [takeCell] using h

end

variable [BEq T] [LT T] [DecidableLT T] {sortOrder : ArraySort}

/-- `a` may stay in front of `b`. -/
def inOrder (sortOrder : ArraySort) (a b : T) : Bool := nlognsortCompare sortOrder a b ≤ 0

/-- The right run wins against `x`. -/
def rightFirst (sortOrder : ArraySort) (x : T) : List T → Bool
  | [] => false
  | b :: _ => !inOrder sortOrder x b

theorem merge_of_rightFirst {x b : T} {xs bs : List T} (h : rightFirst sortOrder x (b :: bs)) :
    (x :: xs).merge (b :: bs) (inOrder sortOrder) =
      b :: (x :: xs).merge bs (inOrder sortOrder) :=
  List.cons_merge_cons_neg _ _ _ (by simpa [rightFirst] using h)

theorem merge_of_leftFirst {x : T} {xs bs : List T} (h : rightFirst sortOrder x bs = false) :
    (x :: xs).merge bs (inOrder sortOrder) = x :: xs.merge bs (inOrder sortOrder) := by
  cases bs with
  | nil => simp
  | cons b bs => exact List.cons_merge_cons_pos _ _ _ (by simpa [rightFirst] using h)

/-- The left elements from the first one that the right run wins against on. -/
def displaced (sortOrder : ArraySort) (as bs : List T) : List T :=
  as.dropWhile fun a => !rightFirst sortOrder a bs

section
variable {before after used free holes : List (Option T)} {out queue as bs : List T} {a x : T}
  {left right gone sizeB : Nat}

theorem rightWins_midMerge (hr : right + gone = before.length + out.length + as.length + holes.length)
    (hs : sizeB = gone + bs.length) :
    rightWins sortOrder right sizeB x (midMerge before after out queue as holes gone bs used free) =
      .ok (rightFirst sortOrder x bs) := by
  cases bs with
  | nil => simp [rightWins, rightFirst, hs]
  | cons b bs =>
    have hlt : gone < sizeB := by simp [hs]
    simp [rightWins, hlt, load_right hr, rightFirst, inOrder]
    by_cases h : 0 < nlognsortCompare sortOrder x b
    · simp [h]
    · simp [h, not_lt.mp h]

/-! The first loop. -/

/-- The right run wins: its element takes the place of `a`, which is displaced. -/
theorem leftTurn_right {b : T} (hl : left = before.length)
    (hr : right + gone = before.length + out.length + (a :: as).length + holes.length)
    (hs : sizeB = gone + (b :: bs).length)
    (hx : (queue ++ [a]).head? = some x) (hwin : rightFirst sortOrder x (b :: bs)) :
    leftTurn sortOrder left right sizeB
        (midMerge before after out queue (a :: as) holes gone (b :: bs) used free) =
      takeCell free fun free =>
        .ok (midMerge before after (out ++ [b]) (queue ++ [a]) as (holes ++ [some b]) (gone + 1) bs used
          free) := by
  simp only [leftTurn, midMerge_i, midMerge_j, midMerge_push, midMerge_pop, load_left hl,
    load_compared hx, load_right hr, rightWins_midMerge hr hs, hwin, addElement_left hl,
    addElement_queue, Outcome.bind_ok, takeCell_bind, if_true]
  simp [midMerge, Nat.add_assoc]

/-- The queue wins: its first element takes the place of `a`, which is put at its end. -/
theorem leftTurn_queue (hl : left = before.length)
    (hr : right + gone = before.length + out.length + (a :: as).length + holes.length)
    (hs : sizeB = gone + bs.length) (hwin : rightFirst sortOrder x bs = false) :
    leftTurn sortOrder left right sizeB
        (midMerge before after out (x :: queue) (a :: as) holes gone bs used free) =
      takeCell free fun free =>
        .ok (midMerge before after (out ++ [x]) (queue ++ [a]) as holes gone bs (used ++ [some x])
          free) := by
  have hx : ((x :: queue) ++ [a]).head? = some x := rfl
  simp only [leftTurn, midMerge_i, midMerge_push, midMerge_pop, load_left hl, load_compared hx,
    rightWins_midMerge hr hs, hwin, Outcome.bind_ok]
  simp only [holds_midMerge, load_queue, addElement_left hl, addElement_queue, Outcome.bind_ok,
    takeCell_bind]
  simp [midMerge, Nat.add_comm, Nat.add_left_comm]

/-- The left element stays where it is. -/
theorem leftTurn_left (hl : left = before.length)
    (hr : right + gone = before.length + out.length + (a :: as).length + holes.length)
    (hs : sizeB = gone + bs.length) (hwin : rightFirst sortOrder a bs = false) :
    leftTurn sortOrder left right sizeB
        (midMerge before after out [] (a :: as) holes gone bs used free) =
      .ok (midMerge before after (out ++ [a]) [] as holes gone bs used free) := by
  have hx : (([] : List T) ++ [a]).head? = some a := rfl
  simp only [leftTurn, midMerge_i, midMerge_pop, load_left hl, load_compared hx,
    rightWins_midMerge hr hs, hwin, Outcome.bind_ok]
  simp only [holds_midMerge]
  simp [midMerge]

/-! The second loop. -/

theorem rightTurn_right {b : T} {c : Option T} (hl : left = before.length)
    (hr : right + gone = before.length + out.length + ([] : List T).length + (c :: holes).length)
    (hs : sizeB = gone + (b :: bs).length) (hwin : rightFirst sortOrder x (b :: bs)) :
    rightTurn sortOrder left right sizeB
        (midMerge before after out (x :: queue) [] (c :: holes) gone (b :: bs) used free) =
      .ok (midMerge before after (out ++ [b]) (x :: queue) [] (holes ++ [some b]) (gone + 1) bs used
        free) := by
  simp only [rightTurn, midMerge_i, midMerge_j, midMerge_pop, load_queue, load_right hr,
    rightWins_midMerge hr hs, hwin, addElement_hole c hl, Outcome.bind_ok, if_true]
  simp [midMerge]

theorem rightTurn_queue {c : Option T} (hl : left = before.length)
    (hr : right + gone = before.length + out.length + ([] : List T).length + (c :: holes).length)
    (hs : sizeB = gone + bs.length) (hwin : rightFirst sortOrder x bs = false) :
    rightTurn sortOrder left right sizeB
        (midMerge before after out (x :: queue) [] (c :: holes) gone bs used free) =
      .ok (midMerge before after (out ++ [x]) queue [] holes gone bs (used ++ [some x]) free) := by
  simp only [rightTurn, midMerge_i, midMerge_pop, load_queue, rightWins_midMerge hr hs, hwin,
    addElement_hole c hl, Outcome.bind_ok]
  simp [midMerge, Nat.add_comm, Nat.add_left_comm]

end

/-- `m` is on its way to `target`; `sizeA` and `sizeB` are the lengths of the runs and `cap` that of
the swap space. -/
def Merges (sortOrder : ArraySort) (before after : List (Option T)) (target : List T)
    (sizeA sizeB cap : Nat) (queue as bs : List T) (free : List (Option T)) (m : Merging T) :
    Prop :=
  ∃ out holes gone used,
    m = midMerge before after out queue as holes gone bs used free ∧
    out ++ (queue ++ as).merge bs (inOrder sortOrder) = target ∧
    queue.length = holes.length ∧ out.length + as.length + holes.length = sizeA + gone ∧
    gone + bs.length = sizeB ∧ used.length + queue.length + free.length = cap

section
variable {before after free : List (Option T)} {target queue as bs : List T} {a : T}
  {left right sizeA sizeB cap : Nat} {m : Merging T}

omit [BEq T] [LT T] [DecidableLT T] in
/-- The left element that is compared, and the left elements after it. -/
theorem compared_cons (queue as : List T) (a : T) : ∃ x xs,
    (queue ++ [a]).head? = some x ∧ queue ++ a :: as = x :: xs ∧ (queue ++ [a]) ++ as = x :: xs := by
  cases queue with
  | nil => exact ⟨a, as, rfl, rfl, rfl⟩
  | cons y queue => exact ⟨y, queue ++ a :: as, rfl, rfl, by simp⟩

/-- While the queue holds an element, or when the right run wins, a left element is displaced. -/
theorem leftTurn_full (hl : left = before.length) (hr : right = left + sizeA)
    (h : Merges sortOrder before after target sizeA sizeB cap queue (a :: as) bs [] m)
    (hd : queue ≠ [] ∨ rightFirst sortOrder a bs) :
    leftTurn sortOrder left right sizeB m = .undef := by
  obtain ⟨out, holes, gone, used, rfl, ht, hq, ha, hb, hcap⟩ := h
  have hr' : right + gone = before.length + out.length + (a :: as).length + holes.length := by
    omega
  obtain ⟨x, xs, hx, hxs, hxs'⟩ := compared_cons queue as a
  cases hw : rightFirst sortOrder x bs with
  | true =>
    cases bs with
    | nil => simp [rightFirst] at hw
    | cons b bs =>
      rw [leftTurn_right hl hr' hb.symm hx hw]
      rfl
  | false =>
    cases queue with
    | nil =>
      obtain rfl : a = x := by simpa using hx
      simp [hw] at hd
    | cons y queue =>
      obtain rfl : y = x := by simpa using hx
      rw [leftTurn_queue hl hr' hb.symm hw]
      rfl

theorem leftTurn_displaces {c : Option T} (hl : left = before.length) (hr : right = left + sizeA)
    (h : Merges sortOrder before after target sizeA sizeB cap queue (a :: as) bs (c :: free) m)
    (hd : queue ≠ [] ∨ rightFirst sortOrder a bs) :
    ∃ queue' bs' m', leftTurn sortOrder left right sizeB m = .ok m' ∧ queue' ≠ [] ∧
      Merges sortOrder before after target sizeA sizeB cap queue' as bs' free m' := by
  obtain ⟨out, holes, gone, used, rfl, ht, hq, ha, hb, hcap⟩ := h
  have hr' : right + gone = before.length + out.length + (a :: as).length + holes.length := by
    omega
  obtain ⟨x, xs, hx, hxs, hxs'⟩ := compared_cons queue as a
  cases hw : rightFirst sortOrder x bs with
  | true =>
    cases bs with
    | nil => simp [rightFirst] at hw
    | cons b bs =>
      refine ⟨queue ++ [a], bs, _, leftTurn_right hl hr' hb.symm hx hw, by simp,
        out ++ [b], holes ++ [some b], gone + 1, used, rfl, ?_, ?_, ?_, ?_, ?_⟩
      · rw [← ht, hxs, hxs', merge_of_rightFirst hw]
        simp
      · simp [hq]
      · simp at ha ⊢
        omega
      · simp at hb ⊢
        omega
      · simp at hcap ⊢
        omega
  | false =>
    cases queue with
    | nil =>
      obtain rfl : a = x := by simpa using hx
      simp [hw] at hd
    | cons y queue =>
      obtain rfl : y = x := by simpa using hx
      refine ⟨queue ++ [a], bs, _, leftTurn_queue hl hr' hb.symm hw, by simp,
        out ++ [y], holes, gone, used ++ [some y], rfl, ?_, ?_, ?_, hb, ?_⟩
      · rw [← ht, List.cons_append, merge_of_leftFirst hw]
        simp
      · simpa using hq
      · simp at ha ⊢
        omega
      · simp at hcap ⊢
        omega

theorem leftTurn_stays (hl : left = before.length) (hr : right = left + sizeA)
    (h : Merges sortOrder before after target sizeA sizeB cap [] (a :: as) bs free m)
    (hw : rightFirst sortOrder a bs = false) :
    ∃ m', leftTurn sortOrder left right sizeB m = .ok m' ∧
      Merges sortOrder before after target sizeA sizeB cap [] as bs free m' := by
  obtain ⟨out, holes, gone, used, rfl, ht, hq, ha, hb, hcap⟩ := h
  have hr' : right + gone = before.length + out.length + (a :: as).length + holes.length := by
    omega
  refine ⟨_, leftTurn_left hl hr' hb.symm hw, out ++ [a], holes, gone, used, rfl, ?_, hq, ?_, hb, hcap⟩
  · rw [← ht, List.nil_append, List.nil_append, merge_of_leftFirst hw]
    simp
  · simp at ha ⊢
    omega

/-- The cells that the queue takes while `as` is gone through. -/
def cellsTaken (sortOrder : ArraySort) (queue as bs : List T) : Nat :=
  if queue.isEmpty then (displaced sortOrder as bs).length else as.length

theorem cellsTaken_of_ne_nil (h : queue ≠ []) : cellsTaken sortOrder queue as bs = as.length := by
  simp [cellsTaken, h]

theorem cellsTaken_cons (hd : queue ≠ [] ∨ rightFirst sortOrder a bs) :
    cellsTaken sortOrder queue (a :: as) bs = as.length + 1 := by
  cases queue with
  | nil =>
    have hw : rightFirst sortOrder a bs = true := by simpa using hd
    simp [cellsTaken, displaced, hw]
  | cons x queue => simp [cellsTaken]

theorem leftLoop_undef (hl : left = before.length) (hr : right = left + sizeA)
    (h : Merges sortOrder before after target sizeA sizeB cap queue as bs free m)
    (hfree : free.length < cellsTaken sortOrder queue as bs) :
    leftLoop sortOrder left right sizeB as.length m = .undef := by
  induction as generalizing queue bs free m with
  | nil => simp [cellsTaken, displaced] at hfree
  | cons a as ih =>
    by_cases hd : queue ≠ [] ∨ rightFirst sortOrder a bs
    · cases free with
      | nil => simp [leftLoop, leftTurn_full hl hr h hd]
      | cons c free =>
        obtain ⟨queue', bs', m', hturn, hne, h'⟩ := leftTurn_displaces hl hr h hd
        rw [cellsTaken_cons hd] at hfree
        rw [List.length_cons, leftLoop, hturn, Outcome.bind_ok]
        refine ih h' ?_
        rw [cellsTaken_of_ne_nil hne]
        simpa using hfree
    · obtain ⟨rfl, hw⟩ : queue = [] ∧ rightFirst sortOrder a bs = false := by simpa using hd
      obtain ⟨m', hturn, h'⟩ := leftTurn_stays hl hr h hw
      rw [List.length_cons, leftLoop, hturn, Outcome.bind_ok]
      refine ih h' ?_
      simpa [cellsTaken, displaced, hw] using hfree

theorem leftLoop_ok (hl : left = before.length) (hr : right = left + sizeA)
    (h : Merges sortOrder before after target sizeA sizeB cap queue as bs free m)
    (hfree : cellsTaken sortOrder queue as bs ≤ free.length) :
    ∃ queue' bs' free' m', leftLoop sortOrder left right sizeB as.length m = .ok m' ∧
      Merges sortOrder before after target sizeA sizeB cap queue' [] bs' free' m' := by
  induction as generalizing queue bs free m with
  | nil => exact ⟨queue, bs, free, m, rfl, h⟩
  | cons a as ih =>
    by_cases hd : queue ≠ [] ∨ rightFirst sortOrder a bs
    · rw [cellsTaken_cons hd] at hfree
      cases free with
      | nil => simp at hfree
      | cons c free =>
        obtain ⟨queue', bs', m', hturn, hne, h'⟩ := leftTurn_displaces hl hr h hd
        rw [List.length_cons, leftLoop, hturn, Outcome.bind_ok]
        refine ih h' ?_
        rw [cellsTaken_of_ne_nil hne]
        simpa using hfree
    · obtain ⟨rfl, hw⟩ : queue = [] ∧ rightFirst sortOrder a bs = false := by simpa using hd
      obtain ⟨m', hturn, h'⟩ := leftTurn_stays hl hr h hw
      rw [List.length_cons, leftLoop, hturn, Outcome.bind_ok]
      refine ih h' ?_
      simpa [cellsTaken, displaced, hw] using hfree

theorem rightTurn_ok {x : T} (hl : left = before.length) (hr : right = left + sizeA)
    (h : Merges sortOrder before after target sizeA sizeB cap (x :: queue) [] bs free m) :
    ∃ queue' bs' m', rightTurn sortOrder left right sizeB m = .ok m' ∧
      Merges sortOrder before after target sizeA sizeB cap queue' [] bs' free m' ∧
      queue'.length + bs'.length < (x :: queue).length + bs.length := by
  obtain ⟨out, holes, gone, used, rfl, ht, hq, ha, hb, hcap⟩ := h
  cases holes with
  | nil => simp at hq
  | cons c holes =>
    have hr' : right + gone =
        before.length + out.length + ([] : List T).length + (c :: holes).length := by
      simp only [List.length_nil] at ha ⊢
      omega
    cases hw : rightFirst sortOrder x bs with
    | true =>
      cases bs with
      | nil => simp [rightFirst] at hw
      | cons b bs =>
        refine ⟨x :: queue, bs, _, rightTurn_right hl hr' hb.symm hw,
          ⟨out ++ [b], holes ++ [some b], gone + 1, used, rfl, ?_, ?_, ?_, ?_, hcap⟩, by simp⟩
        · rw [← ht, List.append_nil, merge_of_rightFirst hw]
          simp
        · simpa using hq
        · simp at ha ⊢
          omega
        · simp at hb ⊢
          omega
    | false =>
      refine ⟨queue, bs, _, rightTurn_queue hl hr' hb.symm hw,
        ⟨out ++ [x], holes, gone, used ++ [some x], rfl, ?_, ?_, ?_, hb, ?_⟩, by simp⟩
      · rw [← ht, List.append_nil, List.append_nil, merge_of_leftFirst hw]
        simp
      · simpa using hq
      · simp at ha ⊢
        omega
      · simp at hcap ⊢
        omega

theorem rightLoop_ok (hl : left = before.length) (hr : right = left + sizeA) {n : Nat}
    (h : Merges sortOrder before after target sizeA sizeB cap queue [] bs free m)
    (hn : queue.length + bs.length ≤ n) :
    ∃ bs' m', rightLoop sortOrder left right sizeB n m = .ok m' ∧
      Merges sortOrder before after target sizeA sizeB cap [] [] bs' free m' := by
  induction n generalizing queue bs m with
  | zero =>
    obtain rfl : queue = [] := List.length_eq_zero_iff.mp (by omega)
    refine ⟨bs, m, ?_, h⟩
    obtain ⟨out, holes, gone, used, rfl, -⟩ := h
    simp [rightLoop]
  | succ n ih =>
    cases queue with
    | nil =>
      refine ⟨bs, m, ?_, h⟩
      obtain ⟨out, holes, gone, used, rfl, -⟩ := h
      simp [rightLoop]
    | cons x queue =>
      have hholds : m.holds = true := by
        obtain ⟨out, holes, gone, used, rfl, -⟩ := h
        simp
      obtain ⟨queue', bs', m', hturn, h', hlt⟩ := rightTurn_ok hl hr h
      simp only [rightLoop, hholds, if_true, hturn, Outcome.bind_ok]
      exact ih h' (by omega)

end

section
variable (before after : List (Option T)) {swapSpace : List (Option T)} {as bs : List T}

/-- The state in which `nlognsortMerge` begins. -/
theorem merges_start (sortOrder : ArraySort) (swapSpace : List (Option T)) (as bs : List T) :
    Merges sortOrder before after (as.merge bs (inOrder sortOrder)) as.length bs.length
      swapSpace.length [] as bs swapSpace
      { eBuf := before ++ (cells as ++ (cells bs ++ after)), swapSpace,
        swapSpacePush := 0, swapSpacePop := 0, i := 0, j := 0 } :=
  ⟨[], [], 0, [], rfl, rfl, rfl, by simp, by simp, by simp⟩

theorem nlognsortMerge_undef
    (h : swapSpace.length < (displaced sortOrder as bs).length) :
    nlognsortMerge sortOrder (before ++ (cells as ++ (cells bs ++ after))) before.length as.length
      (before.length + as.length) bs.length swapSpace = .undef := by
  rw [nlognsortMerge, leftLoop_undef rfl rfl
    (merges_start before after sortOrder swapSpace as bs) (by simpa [cellsTaken] using h),
    Outcome.bind_undef]

theorem nlognsortMerge_ok
    (h : (displaced sortOrder as bs).length ≤ swapSpace.length) :
    ∃ swapSpace', swapSpace'.length = swapSpace.length ∧
      nlognsortMerge sortOrder (before ++ (cells as ++ (cells bs ++ after))) before.length as.length
        (before.length + as.length) bs.length swapSpace =
      .ok (before ++ (cells (as.merge bs (inOrder sortOrder)) ++ after), swapSpace') := by
  obtain ⟨queue, bs', free, m, hleft, hm⟩ := leftLoop_ok rfl rfl
    (merges_start before after sortOrder swapSpace as bs) (by simpa [cellsTaken] using h)
  have hn : queue.length + bs'.length ≤ as.length + bs.length := by
    obtain ⟨out, holes, gone, used, rfl, ht, hq, ha, hb, hcap⟩ := hm
    have hlen := congrArg List.length ht
    simp only [List.append_nil, List.length_append, List.length_merge] at hlen
    omega
  obtain ⟨bs'', m', hright, hm'⟩ := rightLoop_ok rfl rfl hm hn
  rw [nlognsortMerge, hleft, Outcome.bind_ok, hright, Outcome.bind_ok]
  obtain ⟨out, holes, gone, used, rfl, ht, hq, ha, hb, hcap⟩ := hm'
  obtain rfl : holes = [] := List.length_eq_zero_iff.mp hq.symm
  refine ⟨(midMerge before after out [] [] [] gone bs'' used free).swapSpace, ?_, ?_⟩
  · simpa [midMerge] using hcap
  · simp [midMerge, ← ht]

end
end WylesLibs.Datastructures
