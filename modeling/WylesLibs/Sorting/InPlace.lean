import WylesLibs.Library.Loops
import WylesLibs.Sorting.Scratch

/-! The merge sort whose swap space is the part of the right run that was read, and that it does
what the one with a swap space of its own does. -/
namespace WylesLibs.Sorting.InPlace
open Library Datastructures
variable {T : Type} [LT T] [DecidableLT T]

/-- The locals of `leftMerge`, with the buffer. -/
structure Merging (T : Type) where
  eBuf : List (Option T)
  swapSpaceSize : Nat
  i : Nat
  j : Nat

/-- `j < sizeB && left_compare > B[j]` -/
def rightWins (right sizeB : Nat) (leftCompare : T) (m : Merging T) : Outcome Bool :=
  if m.j < sizeB then
    (load m.eBuf (right + m.j)).bind fun b => .ok (decide (leftCompare > b))
  else
    .ok false

/-- The elements behind the first one of the swap space move down. -/
def shift (swapSpace count : Nat) (eBuf : List (Option T)) : Outcome (List (Option T)) :=
  forCount (fun i eBuf => (load eBuf (swapSpace + (i + 1))).bind fun el =>
    addElement eBuf (swapSpace + i) el) 0 count eBuf

/-- The body of the loop of `leftMerge`; `left`, `right` and `swapSpace` are positions.
`DATA_COLLECTION`, which no file of the source defines, is 0: the shifts leave no record. -/
def leftTurn (left right sizeB swapSpace : Nat) (m : Merging T) : Outcome (Merging T) :=
  (load m.eBuf (left + m.i)).bind fun first =>
  (if m.swapSpaceSize > 0 then load m.eBuf swapSpace else .ok first).bind fun leftCompare =>
  (rightWins right sizeB leftCompare m).bind fun wins =>
  if wins then
    (load m.eBuf (left + m.i)).bind fun swap =>
    (load m.eBuf (right + m.j)).bind fun b =>
    (addElement m.eBuf (left + m.i) b).bind fun eBuf =>
    (addElement eBuf (swapSpace + m.swapSpaceSize) swap).bind fun eBuf =>
    .ok { eBuf, swapSpaceSize := m.swapSpaceSize + 1, j := m.j + 1, i := m.i + 1 }
  else if m.swapSpaceSize > 0 then
    (load m.eBuf (left + m.i)).bind fun swap =>
    (load m.eBuf swapSpace).bind fun el =>
    (addElement m.eBuf (left + m.i) el).bind fun eBuf =>
    let indexOfLastElement := m.swapSpaceSize - 1
    (shift swapSpace indexOfLastElement eBuf).bind fun eBuf =>
    (addElement eBuf (swapSpace + indexOfLastElement) swap).bind fun eBuf =>
    .ok { m with eBuf, i := m.i + 1 }
  else
    .ok { m with i := m.i + 1 }

def leftLoop (left right sizeB swapSpace : Nat) : Nat → Merging T → Outcome (Merging T)
  | 0, m => .ok m
  | n + 1, m =>
    (leftTurn left right sizeB swapSpace m).bind (leftLoop left right sizeB swapSpace n)

/-- What is in the buffer at the end, and the size of the swap space. -/
def leftMerge (eBuf : List (Option T)) (left sizeA right sizeB swapSpace swapSpaceSize : Nat) :
    Outcome (List (Option T) × Nat) :=
  (leftLoop left right sizeB swapSpace sizeA { eBuf, swapSpaceSize, i := 0, j := 0 }).bind fun m =>
  .ok (m.eBuf, m.swapSpaceSize)

/-- `while (swap_space_size > 0)` with `n` turns at most; `right` is the position of `B`, where the
swap space begins. -/
def mergeLoop : Nat → List (Option T) → Nat → Nat → Nat → Outcome (List (Option T))
  | 0, eBuf, _, _, swapSpaceSize => if swapSpaceSize > 0 then .timeout else .ok eBuf
  | n + 1, eBuf, right, sizeB, swapSpaceSize =>
    if swapSpaceSize > 0 then
      let left := right
      let sizeA := swapSpaceSize
      let right := right + swapSpaceSize
      let sizeB := sizeB - swapSpaceSize
      (leftMerge eBuf left sizeA right sizeB right 0).bind fun (eBuf, swapSpaceSize) =>
        mergeLoop n eBuf right sizeB swapSpaceSize
    else
      .ok eBuf

/-- The loop may take `n` turns. -/
def mergeWithin (n : Nat) (eBuf : List (Option T)) (left sizeA right sizeB : Nat) :
    Outcome (List (Option T)) :=
  (leftMerge eBuf left sizeA right sizeB right 0).bind fun (eBuf, swapSpaceSize) =>
    mergeLoop n eBuf right sizeB swapSpaceSize

def merge (eBuf : List (Option T)) (left sizeA right sizeB : Nat) : Outcome (List (Option T)) :=
  mergeWithin sizeB eBuf left sizeA right sizeB

def nlognSort (eBuf : List (Option T)) (left size : Nat) : Outcome (List (Option T)) :=
  if size ≤ 1 then
    .ok eBuf
  else
    let sizeLeft := (size + 1) / 2
    let sizeRight := size - sizeLeft
    (nlognSort eBuf left sizeLeft).bind fun eBuf =>
    (nlognSort eBuf (left + sizeLeft) sizeRight).bind fun eBuf =>
    merge eBuf left sizeLeft (left + sizeLeft) sizeRight
termination_by size

/-! `leftMerge`: the queue of displaced elements stands in front of what is left of `B`. -/

/-- What is merged is in `out`; the left elements still to come are `queue` and then `as`, the right
ones `bs`. -/
def midMerge (before after : List (Option T)) (out as queue bs : List T) : Merging T where
  eBuf := before ++ (cells out ++ (cells as ++ (cells queue ++ (cells bs ++ after))))
  swapSpaceSize := queue.length
  i := out.length
  j := queue.length

/-- `b` wins against the left element. -/
def rightFirst (x : T) : List T → Bool
  | [] => false
  | b :: _ => decide (x > b)

theorem merge_of_rightFirst {x b : T} {xs bs : List T} (h : rightFirst x (b :: bs) = true) :
    (x :: xs).merge (b :: bs) ascends = b :: (x :: xs).merge bs ascends :=
  List.cons_merge_cons_neg _ _ _ (by simpa [rightFirst, ascends] using h)

theorem merge_of_leftFirst {x : T} {xs bs : List T} (h : rightFirst x bs = false) :
    (x :: xs).merge bs ascends = x :: xs.merge bs ascends := by
  cases bs with
  | nil => simp
  | cons b bs => exact List.cons_merge_cons_pos _ _ _ (by simpa [rightFirst, ascends] using h)

section
variable {before after : List (Option T)} {out as queue bs : List T} {a b x : T}
variable {left right sizeB : Nat}

omit [LT T] [DecidableLT T] in
/-- The elements of the queue move over its first one, cell by cell. -/
theorem shift_ok (before after : List (Option T)) (x : T) (queue : List T) :
    ∃ last, shift before.length queue.length (before ++ (cells (x :: queue) ++ after)) =
      .ok (before ++ (cells queue ++ some last :: after)) := by
  have hturn : ∀ k s, 0 ≤ k → k < 0 + queue.length →
      s = before ++ (cells (queue.take k) ++ (cells ((x :: queue).drop k) ++ after)) →
      ∃ t, ((load s (before.length + (k + 1))).bind fun el =>
          addElement s (before.length + k) el) = .ok t ∧
        t = before ++ (cells (queue.take (k + 1)) ++ (cells ((x :: queue).drop (k + 1)) ++ after)) := by
    intro k s _ hk hs
    have hk' : k < queue.length := by omega
    obtain ⟨y, hy⟩ : ∃ y, (x :: queue).drop k = y :: queue.drop k :=
      ⟨_, List.drop_eq_getElem_cons (by simp; omega)⟩
    have hnext : queue.drop k = queue[k] :: queue.drop (k + 1) := List.drop_eq_getElem_cons hk'
    have hcells : cells (queue.drop k) = some queue[k] :: cells (queue.drop (k + 1)) := by
      rw [hnext]
      rfl
    have htake : cells (queue.take (k + 1)) = cells (queue.take k) ++ [some queue[k]] := by
      rw [List.take_add_one, List.getElem?_eq_getElem hk', cells_append]
      rfl
    have hlen : (before ++ cells (queue.take k)).length = before.length + k := by
      simp only [List.length_append, length_cells, List.length_take]
      omega
    have hload : load s (before.length + (k + 1)) = .ok queue[k] :=
      load_of_eq (before ++ (cells (queue.take k) ++ [some y])) (cells (queue.drop (k + 1)) ++ after)
        (by rw [hs, hy, cells_cons, hcells]; simp) (by simp; omega)
    have hstore : addElement s (before.length + k) queue[k] =
        .ok ((before ++ cells (queue.take k)) ++ some queue[k] :: (cells (queue.drop k) ++ after)) :=
      @addElement_of_eq _ _ _ _ _ _ (some y) (by rw [hs, hy]; simp) hlen.symm
    refine ⟨_, by rw [hload, Outcome.bind_ok, hstore], ?_⟩
    rw [htake, List.drop_succ_cons, List.append_assoc, List.append_assoc, List.singleton_append]
  obtain ⟨t, ht, hend⟩ := forCount_ok hturn
    (by simp : before ++ (cells (x :: queue) ++ after) = before ++ (cells (queue.take 0) ++
      (cells ((x :: queue).drop 0) ++ after)))
  obtain ⟨last, hlast⟩ : ∃ last, (x :: queue).drop queue.length = [last] :=
    List.length_eq_one_iff.mp (by simp)
  refine ⟨last, ?_⟩
  rw [shift, ht, hend, Nat.zero_add, List.take_length, hlast]
  simp

/-! A turn. -/

section
omit [LT T] [DecidableLT T]

theorem load_left (hl : left = before.length) :
    load (midMerge before after out (a :: as) queue bs).eBuf (left + out.length) = .ok a :=
  load_of_eq (before ++ cells out) (cells as ++ (cells queue ++ (cells bs ++ after)))
    (by simp [midMerge]) (by simp [hl])

theorem load_right (hr : right = before.length + out.length + as.length) :
    load (midMerge before after out as queue (b :: bs)).eBuf (right + queue.length) = .ok b :=
  load_of_eq (before ++ (cells out ++ (cells as ++ cells queue))) (cells bs ++ after)
    (by simp [midMerge]) (by simp [hr]; omega)

theorem load_queue (hr : right = before.length + out.length + as.length) :
    load (midMerge before after out as (x :: queue) bs).eBuf right = .ok x :=
  load_of_eq (before ++ (cells out ++ cells as)) (cells queue ++ (cells bs ++ after))
    (by simp [midMerge]) (by simp [hr]; omega)

theorem addElement_left (hl : left = before.length) (el : T) :
    addElement (midMerge before after out (a :: as) queue bs).eBuf (left + out.length) el =
      .ok ((before ++ cells (out ++ [el]) ++ cells as) ++ (cells queue ++ (cells bs ++ after))) := by
  have h := @addElement_of_eq _ (midMerge before after out (a :: as) queue bs).eBuf
    (before ++ cells out) (cells as ++ (cells queue ++ (cells bs ++ after)))
    (left + out.length) el (some a) (by simp [midMerge]) (by simp [hl])
  rw [h]
  simp

/-- The left element that is compared is the first of the queue and what is left of `A`. -/
theorem load_compared (hr : right = before.length + out.length + as.length)
    (hx : (queue ++ [a]).head? = some x) :
    (if queue.length > 0 then load (midMerge before after out as queue bs).eBuf right else .ok a) =
      .ok x := by
  cases queue with
  | nil =>
    obtain rfl : a = x := by simpa using hx
    simp
  | cons y queue =>
    obtain rfl : y = x := by simpa using hx
    simp [load_queue hr]

end

theorem rightWins_midMerge (hr : right = before.length + out.length + as.length)
    (hs : sizeB = queue.length + bs.length) :
    rightWins right sizeB x (midMerge before after out as queue bs) = .ok (rightFirst x bs) := by
  have hj : (midMerge before after out as queue bs).j = queue.length := rfl
  cases bs with
  | nil => simp [rightWins, rightFirst, midMerge, hs]
  | cons b bs =>
    have hlt : queue.length < sizeB := by simp [hs]
    rw [rightWins, hj, if_pos hlt, load_right hr, Outcome.bind_ok]
    rfl

/-- The right run wins: its element takes the place of `a`, and `a` takes its place. -/
theorem leftTurn_right (hl : left = before.length)
    (hr : right = before.length + out.length + (a :: as).length)
    (hs : sizeB = queue.length + (b :: bs).length)
    (hx : (queue ++ [a]).head? = some x) (hwin : rightFirst x (b :: bs) = true) :
    leftTurn left right sizeB right (midMerge before after out (a :: as) queue (b :: bs)) =
      .ok (midMerge before after (out ++ [b]) as (queue ++ [a]) bs) := by
  have hsize : (midMerge before after out (a :: as) queue (b :: bs)).swapSpaceSize =
      queue.length := rfl
  have hi : (midMerge before after out (a :: as) queue (b :: bs)).i = out.length := rfl
  have hj : (midMerge before after out (a :: as) queue (b :: bs)).j = queue.length := rfl
  have hqueue : addElement ((before ++ cells (out ++ [b]) ++ cells as) ++
      (cells queue ++ (cells (b :: bs) ++ after))) (right + queue.length) a =
      .ok ((before ++ cells (out ++ [b]) ++ cells as ++ cells queue) ++
        some a :: (cells bs ++ after)) :=
    @addElement_of_eq _ _ (before ++ cells (out ++ [b]) ++ cells as ++ cells queue)
      (cells bs ++ after) _ a (some b) (by simp) (by simp [hr]; omega)
  rw [leftTurn, hi, load_left hl, Outcome.bind_ok, hsize, load_compared hr hx, Outcome.bind_ok,
    rightWins_midMerge hr hs, hwin, Outcome.bind_ok, if_pos rfl, Outcome.bind_ok, hj,
    load_right hr, Outcome.bind_ok, addElement_left hl, Outcome.bind_ok, hqueue, Outcome.bind_ok]
  simp [midMerge]

/-- The queue wins: its first element takes the place of `a`, which is put at its end. -/
theorem leftTurn_queue (hl : left = before.length)
    (hr : right = before.length + out.length + (a :: as).length)
    (hs : sizeB = (x :: queue).length + bs.length) (hwin : rightFirst x bs = false) :
    leftTurn left right sizeB right (midMerge before after out (a :: as) (x :: queue) bs) =
      .ok (midMerge before after (out ++ [x]) as (queue ++ [a]) bs) := by
  have hx : ((x :: queue) ++ [a]).head? = some x := rfl
  have hsize : (midMerge before after out (a :: as) (x :: queue) bs).swapSpaceSize =
      (x :: queue).length := rfl
  have hi : (midMerge before after out (a :: as) (x :: queue) bs).i = out.length := rfl
  have hpos : (x :: queue).length > 0 := Nat.succ_pos _
  have hpred : (x :: queue).length - 1 = queue.length := rfl
  have hright : right = (before ++ cells (out ++ [x]) ++ cells as).length := by
    simp [hr]
    omega
  obtain ⟨last, hshift⟩ := shift_ok (before ++ cells (out ++ [x]) ++ cells as)
    (cells bs ++ after) x queue
  have hlast : addElement ((before ++ cells (out ++ [x]) ++ cells as) ++
      (cells queue ++ some last :: (cells bs ++ after))) (right + queue.length) a =
      .ok ((before ++ cells (out ++ [x]) ++ cells as ++ cells queue) ++
        some a :: (cells bs ++ after)) :=
    @addElement_of_eq _ _ (before ++ cells (out ++ [x]) ++ cells as ++ cells queue)
      (cells bs ++ after) _ a (some last) (by simp) (by simp [hr]; omega)
  rw [← hright] at hshift
  rw [leftTurn, hi, load_left hl, Outcome.bind_ok, hsize, load_compared hr hx, Outcome.bind_ok,
    rightWins_midMerge hr hs, hwin, Outcome.bind_ok, if_neg Bool.false_ne_true, if_pos hpos,
    Outcome.bind_ok, load_queue hr, Outcome.bind_ok, addElement_left hl, Outcome.bind_ok]
  dsimp only
  rw [hpred, hshift, Outcome.bind_ok, hlast, Outcome.bind_ok]
  simp [midMerge]

/-- The left element stays where it is. -/
theorem leftTurn_left (hl : left = before.length)
    (hr : right = before.length + out.length + (a :: as).length) (hs : sizeB = bs.length)
    (hwin : rightFirst a bs = false) :
    leftTurn left right sizeB right (midMerge before after out (a :: as) [] bs) =
      .ok (midMerge before after (out ++ [a]) as [] bs) := by
  have hx : (([] : List T) ++ [a]).head? = some a := rfl
  have hs' : sizeB = ([] : List T).length + bs.length := by simp [hs]
  have hsize : (midMerge before after out (a :: as) [] bs).swapSpaceSize =
      ([] : List T).length := rfl
  have hi : (midMerge before after out (a :: as) [] bs).i = out.length := rfl
  have hempty : ¬ ([] : List T).length > 0 := Nat.lt_irrefl 0
  rw [leftTurn, hi, load_left hl, Outcome.bind_ok, hsize, load_compared hr hx, Outcome.bind_ok,
    rightWins_midMerge hr hs', hwin, Outcome.bind_ok, if_neg Bool.false_ne_true,
    if_neg hempty]
  simp [midMerge]

/-- The loop leaves as much of the merge as `A` has room for in `A`, and behind it the queue and what
is left of `B`. -/
theorem leftLoop_ok (hl : left = before.length)
    (hr : right = before.length + out.length + as.length)
    (hs : sizeB = queue.length + bs.length) :
    ∃ out' queue' bs',
      leftLoop left right sizeB right as.length (midMerge before after out as queue bs) =
        .ok (midMerge before after out' [] queue' bs') ∧
      out' ++ queue'.merge bs' ascends = out ++ (queue ++ as).merge bs ascends ∧
      out'.length = out.length + as.length ∧ queue'.length + bs'.length = sizeB := by
  induction as generalizing out queue bs with
  | nil => exact ⟨out, queue, bs, rfl, by simp, rfl, hs.symm⟩
  | cons a as ih =>
    obtain ⟨x, xs, hx, hxs, hxs'⟩ := Datastructures.compared_cons queue as a
    cases hwin : rightFirst x bs with
    | true =>
      cases bs with
      | nil => simp [rightFirst] at hwin
      | cons b bs =>
        obtain ⟨out', queue', bs', hloop, hout, hlen, hleft⟩ :=
          @ih (out ++ [b]) (queue ++ [a]) bs (by simp at hr ⊢; omega) (by simp at hs ⊢; omega)
        refine ⟨out', queue', bs', ?_, ?_, by simp at hlen ⊢; omega, hleft⟩
        · rw [List.length_cons, leftLoop, leftTurn_right hl hr hs hx hwin, Outcome.bind_ok, hloop]
        · rw [hout, hxs, hxs', merge_of_rightFirst hwin]
          simp
    | false =>
      cases queue with
      | nil =>
        obtain rfl : a = x := by simpa using hx
        obtain ⟨out', queue', bs', hloop, hout, hlen, hleft⟩ :=
          @ih (out ++ [a]) [] bs (by simp at hr ⊢; omega) hs
        refine ⟨out', queue', bs', ?_, ?_, by simp at hlen ⊢; omega, hleft⟩
        · rw [List.length_cons, leftLoop, leftTurn_left hl hr (by simpa using hs) hwin,
            Outcome.bind_ok, hloop]
        · rw [hout, List.nil_append, List.nil_append, merge_of_leftFirst hwin]
          simp
      | cons y queue =>
        obtain rfl : y = x := by simpa using hx
        obtain ⟨out', queue', bs', hloop, hout, hlen, hleft⟩ :=
          @ih (out ++ [y]) (queue ++ [a]) bs (by simp at hr ⊢; omega) (by simp at hs ⊢; omega)
        refine ⟨out', queue', bs', ?_, ?_, by simp at hlen ⊢; omega, hleft⟩
        · rw [List.length_cons, leftLoop, leftTurn_queue hl hr hs hwin, Outcome.bind_ok, hloop]
        · rw [hout, List.cons_append, merge_of_leftFirst hwin]
          simp

end

/-! `merge` and `nlognSort`. -/

theorem leftMerge_ok (before after : List (Option T)) (as bs : List T) :
    ∃ out queue bs',
      leftMerge (before ++ (cells as ++ (cells bs ++ after))) before.length as.length
          (before.length + as.length) bs.length (before.length + as.length) 0 =
        .ok (before ++ (cells out ++ (cells queue ++ (cells bs' ++ after))), queue.length) ∧
      out ++ queue.merge bs' ascends = as.merge bs ascends ∧ out.length = as.length ∧
      queue.length + bs'.length = bs.length := by
  obtain ⟨out, queue, bs', hloop, hout, hlen, hleft⟩ :=
    @leftLoop_ok T _ _ before after [] as [] bs before.length (before.length + as.length) bs.length
      rfl rfl (Nat.zero_add _).symm
  refine ⟨out, queue, bs', ?_, hout, by simpa using hlen, hleft⟩
  have hstart : (⟨before ++ (cells as ++ (cells bs ++ after)), 0, 0, 0⟩ : Merging T) =
      midMerge before after [] as [] bs := rfl
  rw [leftMerge, hstart, hloop, Outcome.bind_ok]
  rfl

/-- Each turn merges the queue with a shorter rest of the right run. -/
theorem mergeLoop_ok (n : Nat) (before after : List (Option T)) (queue bs : List T)
    (hn : queue.length + bs.length ≤ n) :
    mergeLoop n (before ++ (cells queue ++ (cells bs ++ after))) before.length
        (queue.length + bs.length) queue.length =
      .ok (before ++ (cells (queue.merge bs ascends) ++ after)) := by
  induction n generalizing before queue bs with
  | zero =>
    obtain rfl : queue = [] := List.length_eq_zero_iff.mp (by omega)
    simp [mergeLoop]
  | succ n ih =>
    cases queue with
    | nil => simp [mergeLoop]
    | cons x queue =>
      obtain ⟨out, queue', bs', hleft, hout, hlen, hrest⟩ :=
        leftMerge_ok before after (x :: queue) bs
      have hpos : (x :: queue).length > 0 := Nat.succ_pos _
      have hsub : (x :: queue).length + bs.length - (x :: queue).length = bs.length := by omega
      have hloop := ih (before ++ cells out) queue' bs' (by simp at hn; omega)
      rw [List.length_append, length_cells, hlen, hrest] at hloop
      simp only [List.append_assoc] at hloop
      rw [mergeLoop, if_pos hpos]
      dsimp only
      rw [hsub, hleft, Outcome.bind_ok]
      dsimp only
      rw [hloop, ← hout, cells_append, List.append_assoc]

theorem mergeWithin_ok {n : Nat} (before after : List (Option T)) {as bs : List T}
    (hn : bs.length ≤ n) :
    mergeWithin n (before ++ (cells as ++ (cells bs ++ after))) before.length as.length
        (before.length + as.length) bs.length =
      .ok (before ++ (cells (as.merge bs ascends) ++ after)) := by
  obtain ⟨out, queue, bs', hleft, hout, hlen, hrest⟩ := leftMerge_ok before after as bs
  have hloop := mergeLoop_ok n (before ++ cells out) after queue bs' (by omega)
  rw [List.length_append, length_cells, hlen, hrest] at hloop
  simp only [List.append_assoc] at hloop
  rw [mergeWithin, hleft, Outcome.bind_ok]
  dsimp only
  rw [hloop, ← hout, cells_append, List.append_assoc]

theorem nlognSort_ok (n : Nat) (before after : List (Option T)) (l : List T)
    (hn : l.length ≤ n) :
    nlognSort (before ++ (cells l ++ after)) before.length l.length =
      .ok (before ++ (cells (l.mergeSort ascends) ++ after)) := by
  induction n generalizing before after l with
  | zero =>
    obtain rfl : l = [] := List.length_eq_zero_iff.mp (by omega)
    rw [nlognSort, if_pos (by simp), List.mergeSort_nil]
  | succ n ih =>
    by_cases hsmall : l.length ≤ 1
    · rw [nlognSort, if_pos hsmall, mergeSort_of_length_le_one _ hsmall]
    · obtain ⟨us, vs, hus, hvs, hl⟩ : ∃ us vs, us = l.take ((l.length + 1) / 2) ∧
          vs = l.drop ((l.length + 1) / 2) ∧ l = us ++ vs :=
        ⟨_, _, rfl, rfl, (List.take_append_drop _ l).symm⟩
      have hlenUs : us.length = (l.length + 1) / 2 := by
        rw [hus, List.length_take]
        omega
      have hlenVs : vs.length = l.length - us.length := by rw [hlenUs, hvs, List.length_drop]
      have hsort : l.mergeSort ascends = (us.mergeSort ascends).merge (vs.mergeSort ascends) ascends := by
        rw [mergeSort_halves ascends (by omega), hus, hvs]
      have hcells : cells l ++ after = cells us ++ (cells vs ++ after) := by
        rw [hl, cells_append, List.append_assoc]
      have hleft := ih before (cells vs ++ after) us (by omega)
      have hright := ih (before ++ cells (us.mergeSort ascends)) after vs (by omega)
      have hmerge := @mergeWithin_ok T _ _ vs.length before after (us.mergeSort ascends)
        (vs.mergeSort ascends) (by rw [List.length_mergeSort])
      simp only [List.length_append, length_cells, List.length_mergeSort, List.append_assoc]
        at hright hmerge
      rw [nlognSort, if_neg hsmall]
      dsimp only
      rw [hcells, ← hlenUs, hleft, Outcome.bind_ok, ← hlenVs, hright, Outcome.bind_ok, merge,
        hmerge, hsort]

theorem stableSortOf_ascends [WeakOrder T] (l : List T) :
    StableSortOf ascends (l.mergeSort ascends) l := by
  apply stableSortOf_mergeSort _ _ l.length l le_rfl
  · intro a b c hab hbc
    simp only [ascends, Bool.not_eq_true', decide_eq_false_iff_not] at hab hbc ⊢
    exact WeakOrder.trans a b c hab hbc
  · intro a b
    by_cases hab : a > b
    · simp [ascends, WeakOrder.asymm a b hab]
    · simp [ascends, hab]

/-- Both sorts leave the stable sort of the elements where these are, and nothing else is changed.
The loop of the merge in place comes to its end whatever it merges. -/
theorem nlognSort_agree [WeakOrder T] (before after : List (Option T)) (l : List T) :
    ∃ sorted, StableSortOf ascends sorted l ∧
      nlognSort (before ++ (cells l ++ after)) before.length l.length =
        .ok (before ++ (cells sorted ++ after)) ∧
      Scratch.nlognSort (before ++ (cells l ++ after)) before.length l.length none =
        .ok (before ++ (cells sorted ++ after), none) ∧
      ∀ as bs : List T, ∀ n ≥ bs.length, ∃ eBuf,
        mergeWithin n (before ++ (cells as ++ (cells bs ++ after))) before.length as.length
          (before.length + as.length) bs.length = .ok eBuf := by
  obtain ⟨ss, hss, hscratch⟩ := Scratch.nlognSort_ok l.length before after l none le_rfl (by simp)
  obtain rfl : ss = none := by simpa using hss
  exact ⟨l.mergeSort ascends, stableSortOf_ascends l, nlognSort_ok l.length before after l le_rfl,
    hscratch, fun _ _ _ hn => ⟨_, mergeWithin_ok before after hn⟩⟩

theorem nlognSort_agree_three :
    ∃ sorted : List Int, StableSortOf ascends sorted [3, 1, 2] ∧
      nlognSort (cells [3, 1, 2]) 0 3 = .ok (cells sorted) := by
  obtain ⟨sorted, hsorted, hsort, -⟩ := nlognSort_agree [] [] [(3 : Int), 1, 2]
  exact ⟨sorted, hsorted, by simpa using hsort⟩

end WylesLibs.Sorting.InPlace
