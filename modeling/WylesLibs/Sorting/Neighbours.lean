import WylesLibs.Sorting.Iterative

/-! `nnSort`: neighbours are swapped in passes, each of which looks at one cell behind what it is
to sort. -/
namespace WylesLibs.Sorting.Neighbours
open Library Datastructures
variable {T : Type} [LT T] [DecidableLT T]

/-- The body of the inner loop. -/
def compareTurn (j : Nat) (eBuf : List (Option T)) : Outcome (List (Option T)) :=
  (load eBuf j).bind fun a =>
  (load eBuf (j + 1)).bind fun b =>
  if a > b then
    (load eBuf j).bind fun swap =>
    (load eBuf (j + 1)).bind fun b =>
    (addElement eBuf j b).bind fun eBuf =>
    addElement eBuf (j + 1) swap
  else
    .ok eBuf

/-- What is left of `for (size_t j = 0; j < size - i; j++)`. -/
def innerLoop : Nat → Nat → List (Option T) → Outcome (List (Option T))
  | 0, _, eBuf => .ok eBuf
  | n + 1, j, eBuf => (compareTurn j eBuf).bind (innerLoop n (j + 1))

/-- What is left of the passes: the one with `n` turns, and those with fewer. -/
def outerLoop : Nat → List (Option T) → Outcome (List (Option T))
  | 0, eBuf => .ok eBuf
  | n + 1, eBuf => (innerLoop (n + 1) 0 eBuf).bind (outerLoop n)

def nnSort (eBuf : List (Option T)) (size : Nat) : Outcome (List (Option T)) :=
  if size ≤ 1 then .ok eBuf else outerLoop size eBuf

/-! A pass carries an element to the end, changing it for each greater one that it meets. -/

def carry (x : T) : List T → List T × T
  | [] => ([], x)
  | y :: ys => if x > y then (y :: (carry x ys).1, (carry x ys).2)
    else (x :: (carry y ys).1, (carry y ys).2)

def passes : Nat → List T → List T
  | n + 1, x :: l => passes n (carry x l).1 ++ [(carry x l).2]
  | _, l => l

theorem length_carry (x : T) (l : List T) : (carry x l).1.length = l.length := by
  induction l generalizing x with
  | nil => rfl
  | cons y ys ih =>
    rw [carry]
    split
    · simp [ih]
    · simp [ih]

theorem carry_perm (x : T) (l : List T) : ((carry x l).1 ++ [(carry x l).2]).Perm (x :: l) := by
  induction l generalizing x with
  | nil => exact .refl _
  | cons y ys ih =>
    rw [carry]
    split
    · exact ((ih x).cons y).trans (.swap x y ys)
    · exact (ih y).cons x

section
variable [WeakOrder T]

theorem ascends_trans (a b c : T) (hab : ascends a b) (hbc : ascends b c) : ascends a c := by
  simp only [ascends, Bool.not_eq_true', decide_eq_false_iff_not] at hab hbc ⊢
  exact WeakOrder.trans a b c hab hbc

theorem ascends_refl (a : T) : ascends a a = true := by simpa using ascends_total a a

/-- No element is greater than the one that is carried. -/
theorem carry_max (x : T) (l : List T) : ascends x (carry x l).2 = true ∧
    ∀ y ∈ (carry x l).1, ascends y (carry x l).2 = true := by
  induction l generalizing x with
  | nil => exact ⟨ascends_refl x, by simp [carry]⟩
  | cons y ys ih =>
    rw [carry]
    split
    · next hxy =>
      obtain ⟨hx, hall⟩ := ih x
      have hyx : ascends y x = true := by simp [ascends, WeakOrder.asymm x y hxy]
      exact ⟨hx, List.forall_mem_cons.mpr ⟨ascends_trans y x _ hyx hx, hall⟩⟩
    · next hxy =>
      obtain ⟨hy, hall⟩ := ih y
      have hle : ascends x y = true := by simp [ascends, hxy]
      have hx := ascends_trans x y _ hle hy
      exact ⟨hx, List.forall_mem_cons.mpr ⟨hx, hall⟩⟩

/-- Elements that change places are not equal. -/
theorem carry_stable (a x : T) (l : List T) :
    ((carry x l).1 ++ [(carry x l).2]).filter (fun b => ascends a b && ascends b a) =
      (x :: l).filter (fun b => ascends a b && ascends b a) := by
  induction l generalizing x with
  | nil => rfl
  | cons y ys ih =>
    rw [carry]
    split
    · next hxy =>
      have happart : (ascends a x && ascends x a) = false ∨ (ascends a y && ascends y a) = false := by
        by_contra hboth
        simp only [not_or, Bool.not_eq_false, Bool.and_eq_true] at hboth
        have hle := ascends_trans x a y hboth.1.2 hboth.2.1
        simp [ascends, hxy] at hle
      have hrest := ih x
      simp only [List.cons_append, List.filter_cons] at hrest ⊢
      obtain hout | hout := happart
      · simp [hout, hrest]
      · simp [hout, hrest]
    · have hrest := ih y
      simp only [List.cons_append, List.filter_cons] at hrest ⊢
      rw [hrest]

theorem passes_stable (n : Nat) (l : List T) (hl : l.length ≤ n + 1) :
    StableSortOf ascends (passes n l) l := by
  induction n generalizing l with
  | zero =>
    have hpasses : passes 0 l = l := by
      cases l <;> rfl
    rw [hpasses]
    apply stableSortOf_self
    rw [List.pairwise_iff_getElem]
    intro i j hi hj hij
    omega
  | succ n ih =>
    cases l with
    | nil => exact stableSortOf_self .nil
    | cons x l =>
      obtain ⟨hperm, hordered, hstable⟩ := ih (carry x l).1 (by
        rw [length_carry]
        simpa using hl)
      constructor
      · exact (hperm.append_right _).trans (carry_perm x l)
      · rw [passes, List.pairwise_append]
        refine ⟨hordered, List.pairwise_singleton _ _, ?_⟩
        intro y hy m hm
        obtain rfl := List.mem_singleton.mp hm
        exact (carry_max x l).2 y (hperm.mem_iff.mp hy)
      · intro a
        rw [passes, List.filter_append, hstable a, ← List.filter_append, carry_stable]

end

/-! The loops do that on the buffer. -/

theorem compareTurn_ok (before after : List (Option T)) (x y : T) :
    compareTurn before.length (before ++ some x :: some y :: after) =
      .ok (before ++ if x > y then some y :: some x :: after else some x :: some y :: after) := by
  have hx : load (before ++ some x :: some y :: after) before.length = .ok x :=
    load_of_eq before (some y :: after) rfl rfl
  have hy : load (before ++ some x :: some y :: after) (before.length + 1) = .ok y :=
    load_of_eq (before ++ [some x]) after (by simp) (by simp)
  rw [compareTurn, hx, Outcome.bind_ok, hy, Outcome.bind_ok]
  by_cases hxy : x > y
  · have hfirst : addElement (before ++ some x :: some y :: after) before.length y =
        .ok (before ++ some y :: some y :: after) := addElement_of_eq before _ rfl rfl
    have hsecond : addElement (before ++ some y :: some y :: after) (before.length + 1) x =
        .ok ((before ++ [some y]) ++ some x :: after) :=
      @addElement_of_eq T _ (before ++ [some y]) after _ x (some y) (by simp) (by simp)
    simp [if_pos hxy, hfirst, hsecond]
  · simp [if_neg hxy]

theorem innerLoop_ok (before after : List (Option T)) (x : T) (l : List T) :
    innerLoop l.length before.length (before ++ (cells (x :: l) ++ after)) =
      .ok (before ++ (cells ((carry x l).1 ++ [(carry x l).2]) ++ after)) := by
  induction l generalizing before x with
  | nil => rfl
  | cons y ys ih =>
    have hturn := compareTurn_ok before (cells ys ++ after) x y
    simp only [List.length_cons, innerLoop, cells_cons, List.cons_append, carry]
    rw [hturn, Outcome.bind_ok]
    by_cases hxy : x > y
    · have hrest := ih (before ++ [some y]) x
      simp only [List.length_append, List.length_singleton, List.append_assoc, cells_cons,
        List.cons_append, List.nil_append] at hrest
      simp only [if_pos hxy, hrest, List.cons_append, cells_cons]
    · have hrest := ih (before ++ [some x]) y
      simp only [List.length_append, List.length_singleton, List.append_assoc, cells_cons,
        List.cons_append, List.nil_append] at hrest
      simp only [if_neg hxy, hrest, List.cons_append, cells_cons]

theorem outerLoop_ok (n : Nat) (l : List T) (after : List (Option T)) (hl : l.length = n + 1) :
    outerLoop n (cells l ++ after) = .ok (cells (passes n l) ++ after) := by
  induction n generalizing l after with
  | zero =>
    have hpasses : passes 0 l = l := by
      cases l <;> rfl
    rw [outerLoop, hpasses]
  | succ n ih =>
    cases l with
    | nil => simp at hl
    | cons x l =>
      have hlen : l.length = n + 1 := by simpa using hl
      have hpass := innerLoop_ok [] after x l
      have hrest := ih (carry x l).1 (some (carry x l).2 :: after) (by rw [length_carry, hlen])
      simp only [List.nil_append, List.length_nil, hlen] at hpass
      rw [outerLoop, hpass, Outcome.bind_ok]
      simpa [passes] using hrest

/-- The last turn of the first pass needs the cell behind the array. -/
theorem innerLoop_undef (before after : List (Option T)) (x : T) (l : List T)
    (hafter : ∀ b, after.head? ≠ some (some b)) :
    innerLoop (l.length + 1) before.length (before ++ (cells (x :: l) ++ after)) = .undef := by
  induction l generalizing before x with
  | nil =>
    have hx : load (before ++ some x :: after) before.length = .ok x :=
      load_of_eq before after rfl rfl
    have hnone : load (before ++ some x :: after) (before.length + 1) = .undef := by
      cases after with
      | nil => simp [load]
      | cons c after =>
        cases c with
        | none => simp [load]
        | some b => exact absurd rfl (hafter b)
    simp only [innerLoop, compareTurn, cells_cons, cells_nil, List.cons_append, List.nil_append, hx,
      hnone, Outcome.bind_ok, Outcome.bind_undef]
  | cons y ys ih =>
    have hturn := compareTurn_ok before (cells ys ++ after) x y
    simp only [List.length_cons, cells_cons, List.cons_append]
    rw [innerLoop, hturn, Outcome.bind_ok]
    by_cases hxy : x > y
    · have hrest := ih (before ++ [some y]) x
      simp only [List.length_append, List.length_singleton, List.append_assoc, cells_cons,
        List.cons_append, List.nil_append] at hrest
      simp only [if_pos hxy, hrest]
    · have hrest := ih (before ++ [some x]) y
      simp only [List.length_append, List.length_singleton, List.append_assoc, cells_cons,
        List.cons_append, List.nil_append] at hrest
      simp only [if_neg hxy, hrest]

/-- The sort takes in the cell behind the array: it sorts with one element more than it was given, so
that the greatest of them ends up behind the array, and where there is none, it has no defined result. -/
theorem nnSort_eq [WeakOrder T] (l : List T) (after : List (Option T)) (h : 2 ≤ l.length) :
    nnSort (cells l ++ after) l.length =
      match after with
      | some x :: after => .ok (cells ((l ++ [x]).mergeSort ascends) ++ after)
      | _ => .undef := by
  rw [nnSort, if_neg (by omega)]
  by_cases hafter : ∃ x rest, after = some x :: rest
  · obtain ⟨x, rest, rfl⟩ := hafter
    have hsort := outerLoop_ok l.length (l ++ [x]) rest (by simp)
    have hunique := (passes_stable l.length (l ++ [x]) (by simp)).unique ascends_total
      (InPlace.stableSortOf_ascends (l ++ [x]))
    rw [hunique] at hsort
    simpa using hsort
  · have hnone : ∀ b, after.head? ≠ some (some b) := by
      intro b hb
      cases after with
      | nil => cases hb
      | cons c rest =>
        obtain rfl : c = some b := by simpa using hb
        exact hafter ⟨b, rest, rfl⟩
    obtain ⟨x, l', rfl⟩ : ∃ x l', l = x :: l' := List.exists_cons_of_length_pos (by omega)
    have hpass := innerLoop_undef [] after x l' hnone
    simp only [List.nil_append, List.length_nil] at hpass
    rw [List.length_cons, outerLoop, hpass, Outcome.bind_undef]
    split
    · next x' rest => exact absurd ⟨x', rest, rfl⟩ hafter
    · rfl

theorem nnSort_eq_three : nnSort (cells [(3 : Int), 1] ++ [some 2]) 2 =
    .ok (cells (([(3 : Int), 1] ++ [2]).mergeSort ascends) ++ []) :=
  nnSort_eq [3, 1] [some 2] (by decide)

end WylesLibs.Sorting.Neighbours
