import Mathlib

/-! Stable sorting by passes that merge runs two at a time. Independent of any particular
program. -/
namespace WylesLibs.Library
variable {α β γ : Type}

section
variable (le : α → α → Bool)

/-- `ys` holds the elements of `xs` in order, and those that the order does not tell apart as they
stand in `xs`. -/
structure StableSortOf (ys xs : List α) : Prop where
  perm : ys.Perm xs
  ordered : ys.Pairwise fun a b => le a b
  stable : ∀ a, ys.filter (fun b => le a b && le b a) = xs.filter (fun b => le a b && le b a)

variable {le}

theorem stableSortOf_self {xs : List α} (h : xs.Pairwise fun a b => le a b) :
    StableSortOf le xs xs := ⟨.refl xs, h, fun _ => rfl⟩

theorem filter_merge (trans : ∀ a b c, le a b → le b c → le a c) (a : α) {xs ys : List α}
    (hxs : xs.Pairwise fun a b => le a b) :
    (xs.merge ys le).filter (fun b => le a b && le b a) =
      xs.filter (fun b => le a b && le b a) ++ ys.filter (fun b => le a b && le b a) := by
  induction xs generalizing ys with
  | nil => simp
  | cons x xs ihx =>
    induction ys with
    | nil => simp
    | cons y ys ihy =>
      by_cases h : le x y = true
      · rw [List.cons_merge_cons_pos le xs ys h, List.filter_cons, List.filter_cons,
          ihx hxs.of_cons]
        split <;> simp
      · rw [List.cons_merge_cons_neg le xs ys h, List.filter_cons, List.filter_cons (x := y), ihy]
        split
        · rename_i hy
          -- nothing of the left run is in the class of `y`, which comes before all of it
          have hnil : (x :: xs).filter (fun b => le a b && le b a) = [] := by
            refine List.filter_eq_nil_iff.mpr fun z hz hc => h ?_
            obtain ⟨hay, -⟩ : le a y = true ∧ le y a = true := by simpa using hy
            obtain ⟨-, hza⟩ : le a z = true ∧ le z a = true := by simpa using hc
            have hzy : le z y = true := trans z a y hza hay
            obtain rfl | hz := List.mem_cons.mp hz
            · exact hzy
            · exact trans x z y (List.rel_of_pairwise_cons hxs hz) hzy
          simp [hnil]
        · rfl

theorem StableSortOf.merge (trans : ∀ a b c, le a b → le b c → le a c)
    (total : ∀ a b, le a b || le b a) {xs ys us vs : List α} (hx : StableSortOf le xs us)
    (hy : StableSortOf le ys vs) : StableSortOf le (xs.merge ys le) (us ++ vs) where
  perm := by
    have hm : (xs.merge ys le).Perm (xs ++ ys) := List.merge_perm_append le
    exact hm.trans (hx.perm.append hy.perm)
  ordered := List.pairwise_merge trans total xs ys hx.ordered hy.ordered
  stable a := by
    rw [filter_merge trans a hx.ordered, List.filter_append, hx.stable, hy.stable]

theorem head_of_filter_eq {y z : α} {ys zs : List α}
    (h : (y :: ys).filter (fun b => le y b && le b y) = (z :: zs).filter (fun b => le y b && le b y))
    (hy : le y y = true) (hyz : le y z = true) (hzy : le z y = true) : y = z := by
  rw [List.filter_cons_of_pos (by simp [hy]), List.filter_cons_of_pos (by simp [hyz, hzy])] at h
  exact (List.cons.inj h).1

/-- Sorted lists are the same if they have the same elements, and each class of equal ones in the
same order. -/
theorem eq_of_filter_eq (total : ∀ a b, le a b || le b a) {ys zs : List α}
    (hys : ys.Pairwise fun a b => le a b) (hzs : zs.Pairwise fun a b => le a b)
    (hperm : ys.Perm zs) (hclass : ∀ a, ys.filter (fun b => le a b && le b a) =
      zs.filter (fun b => le a b && le b a)) : ys = zs := by
  have hrefl : ∀ a, le a a = true := fun a => by simpa using total a a
  induction ys generalizing zs with
  | nil => exact hperm.nil_eq
  | cons y ys ih =>
    cases zs with
    | nil => exact absurd hperm.symm.nil_eq (by simp)
    | cons z zs =>
      have hyz : le y z = true := by
        obtain rfl | hz := List.mem_cons.mp (hperm.mem_iff.mpr List.mem_cons_self)
        · exact hrefl z
        · exact List.rel_of_pairwise_cons hys hz
      have hzy : le z y = true := by
        obtain rfl | hy := List.mem_cons.mp (hperm.mem_iff.mp List.mem_cons_self)
        · exact hrefl y
        · exact List.rel_of_pairwise_cons hzs hy
      obtain rfl := head_of_filter_eq (hclass y) (hrefl y) hyz hzy
      have hclass' : ∀ a, ys.filter (fun b => le a b && le b a) =
          zs.filter (fun b => le a b && le b a) := by
        intro a
        have ha := hclass a
        cases hin : (le a y && le y a) with
        | true => simpa only [List.filter_cons, hin, if_true, List.cons.injEq, true_and] using ha
        | false => simpa only [List.filter_cons, hin, Bool.false_eq_true, if_false] using ha
      rw [ih hys.of_cons hzs.of_cons hperm.cons_inv hclass']

/-- There is one stable sort. -/
theorem StableSortOf.unique (total : ∀ a b, le a b || le b a) {xs ys zs : List α}
    (hy : StableSortOf le ys xs) (hz : StableSortOf le zs xs) : ys = zs :=
  eq_of_filter_eq total hy.ordered hz.ordered (hy.perm.trans hz.perm.symm) fun a =>
    (hy.stable a).trans (hz.stable a).symm

/-- Of a sorted list, the elements from the first one that fails on are those that fail. -/
theorem dropWhile_eq_filter {p : α → Bool} {xs : List α} (h : xs.Pairwise fun a b => p b → p a) :
    xs.dropWhile p = xs.filter fun x => !p x := by
  induction xs with
  | nil => rfl
  | cons x xs ih =>
    cases hx : p x with
    | true => simp [hx, ih h.of_cons]
    | false =>
      have hxs : xs.filter (fun y => !p y) = xs := by
        refine List.filter_eq_self.mpr fun y hy => ?_
        have hyx := List.rel_of_pairwise_cons h hy
        cases hy' : p y with
        | true => simp [hyx hy'] at hx
        | false => rfl
      simp [hx, hxs]

/-- The elements that come after the first of `b :: ys` are those that come after one of them. -/
theorem length_dropWhile_le (trans : ∀ a b c, le a b → le b c → le a c) {xs ys us vs : List α}
    {b : α} (hx : StableSortOf le xs us) (hy : StableSortOf le (b :: ys) vs) :
    (xs.dropWhile fun x => le x b).length =
      (us.filter fun x => vs.any fun y => !le x y).length := by
  have hdrop : xs.dropWhile (fun x => le x b) = xs.filter fun x => !le x b :=
    dropWhile_eq_filter (hx.ordered.imp fun h1 h2 => trans _ _ _ h1 h2)
  have hany : ∀ x, (!le x b) = vs.any fun y => !le x y := by
    intro x
    rw [← hy.perm.any_eq, List.any_cons]
    cases hxb : le x b with
    | false => rfl
    | true =>
      have hall : ys.any (fun y => !le x y) = false := by
        refine List.any_eq_false.mpr fun y hy' => ?_
        simp [trans x b y hxb (List.rel_of_pairwise_cons hy.ordered hy')]
      simp [hall]
  calc
    (xs.dropWhile fun x => le x b).length = (xs.filter fun x => !le x b).length := by rw [hdrop]
    _ = (xs.filter fun x => vs.any fun y => !le x y).length := by simp only [hany]
    _ = (us.filter fun x => vs.any fun y => !le x y).length := (hx.perm.filter _).length_eq

end

/-! One pass: each run is joined with the one after it. -/

def joinPairs (join : List α → List α → List α) : List (List α) → List (List α)
  | r :: s :: rs => join r s :: joinPairs join rs
  | rs => rs

@[simp] theorem joinPairs_nil (join : List α → List α → List α) : joinPairs join [] = [] := rfl

@[simp] theorem joinPairs_singleton (join : List α → List α → List α) (r : List α) :
    joinPairs join [r] = [r] := rfl

@[simp] theorem joinPairs_cons_cons (join : List α → List α → List α) (r s : List α)
    (rs : List (List α)) : joinPairs join (r :: s :: rs) = join r s :: joinPairs join rs := rfl

theorem flatten_joinPairs_append (rs : List (List α)) :
    (joinPairs (· ++ ·) rs).flatten = rs.flatten := by
  induction rs using joinPairs.induct with
  | case1 r s rs ih => simp [ih]
  | case2 rs h => simp [joinPairs]

theorem length_flatten_joinPairs {join : List α → List α → List α}
    (hjoin : ∀ r s, (join r s).length = r.length + s.length) (rs : List (List α)) :
    (joinPairs join rs).flatten.length = rs.flatten.length := by
  induction rs using joinPairs.induct with
  | case1 r s rs ih =>
    rw [joinPairs_cons_cons, List.flatten_cons, List.length_append, hjoin, ih]
    simp [Nat.add_assoc]
  | case2 rs h => simp [joinPairs]

theorem forall₂_joinPairs {R : List α → List α → Prop} {f g : List α → List α → List α}
    (hR : ∀ r s u v, R r u → R s v → R (f r s) (g u v)) {rs us : List (List α)}
    (h : List.Forall₂ R rs us) : List.Forall₂ R (joinPairs f rs) (joinPairs g us) := by
  induction rs using joinPairs.induct generalizing us with
  | case1 r s rs ih =>
    cases h with
    | cons hr h =>
      cases h with
      | cons hs h => exact .cons (hR r s _ _ hr hs) (ih h)
  | case2 rs hne =>
    cases h with
    | nil => exact .nil
    | cons hr h =>
      cases h with
      | nil => exact .cons hr .nil
      | cons hs h => exact absurd rfl (hne _ _ _)

/-- All runs have `w` elements but the last, which has at least one and at most `w`. -/
def EvenRuns (w : Nat) : List (List α) → Prop
  | [] => True
  | [r] => 0 < r.length ∧ r.length ≤ w
  | r :: s :: rs => r.length = w ∧ EvenRuns w (s :: rs)

theorem EvenRuns.head {w : Nat} {r : List α} {rs : List (List α)} (h : EvenRuns w (r :: rs)) :
    r.length ≤ w := by
  cases rs with
  | nil => exact h.2
  | cons s rs => exact h.1.le

theorem EvenRuns.tail {w : Nat} {r : List α} {rs : List (List α)} (h : EvenRuns w (r :: rs)) :
    EvenRuns w rs := by
  cases rs with
  | nil => trivial
  | cons s rs => exact h.2

theorem EvenRuns.head_pos {w : Nat} {r : List α} {rs : List (List α)} (hw : 0 < w)
    (h : EvenRuns w (r :: rs)) : 0 < r.length := by
  cases rs with
  | nil => exact h.1
  | cons s rs => exact h.1 ▸ hw

theorem EvenRuns.length_le_of_mem {w : Nat} {r : List α} {rs : List (List α)}
    (h : EvenRuns w rs) (hr : r ∈ rs) : r.length ≤ w := by
  induction rs with
  | nil => cases hr
  | cons s rs ih =>
    obtain rfl | hr := List.mem_cons.mp hr
    · exact h.head
    · exact ih h.tail hr

theorem EvenRuns.length_le {w : Nat} {rs : List (List α)} (hw : 0 < w) (h : EvenRuns w rs) :
    rs.length ≤ rs.flatten.length := by
  induction rs with
  | nil => simp
  | cons r rs ih =>
    have hr := h.head_pos hw
    have hrs := ih h.tail
    rw [List.flatten_cons, List.length_append, List.length_cons]
    omega

theorem evenRuns_joinPairs {join : List α → List α → List α}
    (hjoin : ∀ r s, (join r s).length = r.length + s.length) {w : Nat} (hw : 0 < w)
    {rs : List (List α)} (h : EvenRuns w rs) : EvenRuns (2 * w) (joinPairs join rs) := by
  induction rs using joinPairs.induct with
  | case1 r s rs ih =>
    have hr : r.length = w := h.1
    have hs := h.tail.head
    have ht := ih h.tail.tail
    cases rs with
    | nil => exact ⟨by rw [hjoin]; omega, by rw [hjoin]; omega⟩
    | cons t rs =>
      have hlen : (join r s).length = 2 * w := by
        rw [hjoin, hr, h.tail.1]
        omega
      cases rs with
      | nil => exact ⟨hlen, ht⟩
      | cons u rs => exact ⟨hlen, ht⟩
  | case2 rs hne =>
    cases rs with
    | nil => trivial
    | cons r rs =>
      cases rs with
      | nil => exact ⟨h.1, h.2.trans (by omega)⟩
      | cons s rs => exact absurd rfl (hne r s rs)

theorem evenRuns_singletons (xs : List α) : EvenRuns 1 (xs.map fun x => [x]) := by
  induction xs with
  | nil => trivial
  | cons x xs ih =>
    cases xs with
    | nil => exact ⟨by simp, by simp⟩
    | cons y xs => exact ⟨rfl, ih⟩

theorem flatten_singletons (xs : List α) : (xs.map fun x => [x]).flatten = xs := by
  induction xs with
  | nil => rfl
  | cons x xs ih => simp [ih]

/-- Runs that are together no longer than one may be are one. -/
theorem EvenRuns.eq_singleton {w : Nat} {rs : List (List α)} (hw : 0 < w) (h : EvenRuns w rs)
    (hlen : rs.flatten.length ≤ w) (hpos : 0 < rs.flatten.length) : rs = [rs.flatten] := by
  cases rs with
  | nil => simp at hpos
  | cons r rs =>
    cases rs with
    | nil => simp
    | cons s rs =>
      have hs := h.tail.head_pos hw
      have hr := h.1
      simp at hlen
      omega

/-- Runs that are together longer than one may be, but not than two, are two. -/
theorem EvenRuns.eq_pair {w : Nat} {rs : List (List α)} (hw : 0 < w) (h : EvenRuns w rs)
    (hlen : rs.flatten.length ≤ 2 * w) (hgt : w < rs.flatten.length) :
    rs = [rs.flatten.take w, rs.flatten.drop w] := by
  cases rs with
  | nil => simp at hgt
  | cons r rs =>
    cases rs with
    | nil =>
      have := h.2
      simp at hgt
      omega
    | cons s rs =>
      have hr := h.1
      have hrest : rs = [] := by
        cases rs with
        | nil => rfl
        | cons t rs =>
          have ht := h.tail.tail.head_pos hw
          have hs := h.tail.1
          simp at hlen
          omega
      subst hrest
      simp [← hr]

/-! `List.mergeSort`, by the halves of the list. -/

theorem mergeSort_of_length_le_one (le : α → α → Bool) {l : List α} (h : l.length ≤ 1) :
    l.mergeSort le = l := by
  cases l with
  | nil => exact List.mergeSort_nil
  | cons a l =>
    obtain rfl : l = [] := List.length_eq_zero_iff.mp (Nat.le_zero.mp (Nat.le_of_succ_le_succ h))
    exact List.mergeSort_singleton a

theorem mergeSort_halves (le : α → α → Bool) {l : List α} (h : 2 ≤ l.length) :
    l.mergeSort le = ((l.take ((l.length + 1) / 2)).mergeSort le).merge
      ((l.drop ((l.length + 1) / 2)).mergeSort le) le := by
  cases l with
  | nil => simp at h
  | cons a l =>
    cases l with
    | nil => simp at h
    | cons b l =>
      rw [List.mergeSort]
      simp only [List.MergeSort.Internal.splitInTwo_fst, List.MergeSort.Internal.splitInTwo_snd]

theorem stableSortOf_mergeSort {le : α → α → Bool} (trans : ∀ a b c, le a b → le b c → le a c)
    (total : ∀ a b, le a b || le b a) (n : Nat) (l : List α) (hn : l.length ≤ n) :
    StableSortOf le (l.mergeSort le) l := by
  induction n generalizing l with
  | zero =>
    obtain rfl : l = [] := List.length_eq_zero_iff.mp (Nat.le_zero.mp hn)
    rw [List.mergeSort_nil]
    exact stableSortOf_self .nil
  | succ n ih =>
    by_cases hsmall : l.length ≤ 1
    · rw [mergeSort_of_length_le_one le hsmall]
      apply stableSortOf_self
      rw [List.pairwise_iff_getElem]
      intro i j hi hj hij
      omega
    · have hleft := ih (l.take ((l.length + 1) / 2)) (by rw [List.length_take]; omega)
      have hright := ih (l.drop ((l.length + 1) / 2)) (by rw [List.length_drop]; omega)
      have hmerged := hleft.merge trans total hright
      rw [List.take_append_drop] at hmerged
      rwa [mergeSort_halves le (by omega)]

end WylesLibs.Library
