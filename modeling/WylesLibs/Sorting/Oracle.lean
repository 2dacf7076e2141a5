import Mathlib

/-! The check of the sorts: `B` against the array `A` that it is to be the sort of. -/
namespace WylesLibs.Sorting

abbrev Counts := Std.HashMap UInt64 Nat

/-- `counts[key]`, which puts a missing key in. -/
def Counts.access (counts : Counts) (key : UInt64) : Nat × Counts :=
  match counts[key]? with
  | some count => (count, counts)
  | none => (0, counts.insert key 0)

/-- The element of an `int` array as a key. -/
def toKey (el : Int32) : UInt64 := el.toInt64.toUInt64

/-- The first occurrence counts zero. -/
def Counts.tally (counts : Counts) (el : Int32) : Counts :=
  if ¬ counts.contains (toKey el) then counts.insert (toKey el) 0
  else
    let (count, counts) := counts.access (toKey el)
    counts.insert (toKey el) (count + 1)

/-- The loop over both arrays; there is no answer where `B` is not sorted. -/
def countLoop : List Int32 → List Int32 → Int32 → Counts → Counts → Option (Counts × Counts)
  | a :: A, b :: B, prev, A_count, B_count =>
    let A_count := A_count.tally a
    if prev > b then none else countLoop A B b A_count (B_count.tally b)
  | _, _, _, A_count, B_count => some (A_count, B_count)

/-- The loop over the entries of `A_count`. -/
def sameCounts : List (UInt64 × Nat) → Counts → Bool
  | [], _ => true
  | (key, value) :: entries, B_count =>
    let (count, B_count) := B_count.access key
    if value ≠ count then false else sameCounts entries B_count

def compareArrays (A B : List Int32) : Bool :=
  if A.length = 0 ∨ A.length ≠ B.length then false
  else
    match B with
    | [] => false
    | prev :: _ =>
      match countLoop A B prev ∅ ∅ with
      | none => false
      | some (A_count, B_count) =>
        if A_count.size ≠ B_count.size then false else sameCounts A_count.toList B_count

/-! What the counts are. -/

theorem toKey_injective : Function.Injective toKey := by
  intro x y h
  have h64 : x.toInt64 = y.toInt64 := Int64.toBitVec_inj.mp (congrArg UInt64.toBitVec h)
  apply Int32.toInt.inj
  rw [← Int32.toInt_toInt64, h64, Int32.toInt_toInt64]

/-- The counts are those of the elements `l`. -/
structure Tallied (counts : Counts) (l : List Int32) : Prop where
  mem : ∀ x, toKey x ∈ counts ↔ x ∈ l
  count : ∀ x, counts.getD (toKey x) 0 = l.count x - 1
  keys : ∀ key ∈ counts, ∃ x, key = toKey x
  size : counts.size = l.dedup.length

section
variable {counts : Counts} {l : List Int32} {x : Int32} {key : UInt64}

theorem tallied_empty : Tallied ∅ [] where
  mem := by simp
  count := by simp
  keys := by simp
  size := by simp

theorem Counts.access_fst (counts : Counts) (key : UInt64) :
    (counts.access key).1 = counts.getD key 0 := by
  rw [access, Std.HashMap.getD_eq_getD_getElem?]
  cases counts[key]? <;> rfl

/-- A key that `access` puts in reads as it did before. -/
theorem Counts.getD_access (counts : Counts) (key key' : UInt64) :
    (counts.access key).2.getD key' 0 = counts.getD key' 0 := by
  rw [access]
  cases hkey : counts[key]? with
  | some count => rfl
  | none =>
    rw [Std.HashMap.getD_insert]
    by_cases heq : key = key'
    · rw [← heq, Std.HashMap.getD_eq_getD_getElem?, hkey]
      simp
    · simp [heq]

theorem Counts.tally_eq (counts : Counts) (el : Int32) :
    counts.tally el = counts.insert (toKey el)
      (if toKey el ∈ counts then counts.getD (toKey el) 0 + 1 else 0) := by
  by_cases hmem : toKey el ∈ counts
  · obtain ⟨count, hcount⟩ : ∃ count, counts[toKey el]? = some count :=
      Option.isSome_iff_exists.mp (by simpa using hmem)
    have hget : counts.getD (toKey el) 0 = count := by
      rw [Std.HashMap.getD_eq_getD_getElem?, hcount]
      rfl
    have haccess : counts.access (toKey el) = (count, counts) := by rw [access, hcount]
    simp [tally, haccess, hmem, hget]
  · simp [tally, hmem]

theorem Tallied.tally (h : Tallied counts l) (el : Int32) :
    Tallied (counts.tally el) (l ++ [el]) := by
  rw [Counts.tally_eq]
  constructor
  · intro x
    rw [Std.HashMap.mem_insert, beq_iff_eq, toKey_injective.eq_iff, h.mem, List.mem_append,
      List.mem_singleton, or_comm, eq_comm]
  · intro x
    rw [Std.HashMap.getD_insert, List.count_append, List.count_singleton]
    by_cases heq : el = x
    · by_cases hmem : x ∈ l
      · have hpos : 0 < l.count x := List.count_pos_iff.mpr hmem
        simp [heq, (h.mem x).mpr hmem, h.count x]
        omega
      · have hzero : l.count x = 0 := List.count_eq_zero.mpr hmem
        simp [heq, mt (h.mem x).mp hmem, hzero]
    · simp [toKey_injective.eq_iff, heq, h.count x]
  · intro key hkey
    obtain hkey | hkey := Std.HashMap.mem_insert.mp hkey
    · exact ⟨el, (beq_iff_eq.mp hkey).symm⟩
    · exact h.keys key hkey
  · rw [Std.HashMap.size_insert, h.size, ← List.card_toFinset, ← List.card_toFinset,
      List.toFinset_append]
    by_cases hmem : el ∈ l
    · have hunion : l.toFinset ∪ [el].toFinset = l.toFinset := by simp [hmem]
      rw [if_pos ((h.mem el).mpr hmem), hunion]
    · rw [if_neg (mt (h.mem el).mp hmem), Finset.card_union_of_disjoint (by simp [hmem])]
      simp

theorem tallied_foldl (l : List Int32) : Tallied (l.foldl Counts.tally ∅) l := by
  induction l using List.reverseRecOn with
  | nil => exact tallied_empty
  | append_singleton l el ih =>
    rw [List.foldl_append]
    exact ih.tally el

/-- The loop counts all of both arrays if it finds `B` sorted. -/
theorem countLoop_eq {A B : List Int32} (hlen : A.length = B.length) (prev : Int32)
    (A_count B_count : Counts) :
    countLoop A B prev A_count B_count =
      if (prev :: B).IsChain (· ≤ ·) then
        some (A.foldl Counts.tally A_count, B.foldl Counts.tally B_count)
      else none := by
  induction A generalizing B prev A_count B_count with
  | nil =>
    obtain rfl : B = [] := List.length_eq_zero_iff.mp hlen.symm
    simp [countLoop]
  | cons a A ih =>
    cases B with
    | nil => simp at hlen
    | cons b B =>
      have hrest := ih (Nat.succ.inj hlen) b (A_count.tally a) (B_count.tally b)
      by_cases hprev : prev ≤ b
      · have hnot : ¬ prev > b := Int32.not_lt.mpr hprev
        simp only [countLoop, if_neg hnot, hrest, List.isChain_cons_cons, hprev, true_and,
          List.foldl_cons]
      · have hgt : prev > b := by rwa [Int32.not_le] at hprev
        simp only [countLoop, if_pos hgt, List.isChain_cons_cons, hprev, false_and, if_false]

theorem sameCounts_iff {entries : List (UInt64 × Nat)} :
    sameCounts entries counts = true ↔ ∀ entry ∈ entries, entry.2 = counts.getD entry.1 0 := by
  induction entries generalizing counts with
  | nil => simp [sameCounts]
  | cons entry entries ih =>
    obtain ⟨key, value⟩ := entry
    have hrest : ∀ entry : UInt64 × Nat, (counts.access key).2.getD entry.1 0 =
        counts.getD entry.1 0 := fun entry => counts.getD_access key entry.1
    simp only [sameCounts, counts.access_fst, List.forall_mem_cons]
    by_cases hvalue : value = counts.getD key 0
    · rw [if_neg (not_not_intro hvalue), ih]
      simp only [hrest, hvalue, true_and]
    · rw [if_pos hvalue]
      simp [hvalue]

/-- A tallied key reads as one less than its occurrences. -/
theorem Tallied.getElem? (h : Tallied counts l) (x : Int32) :
    counts[toKey x]? = if x ∈ l then some (l.count x - 1) else none := by
  by_cases hx : x ∈ l
  · obtain ⟨count, hcount⟩ : ∃ count, counts[toKey x]? = some count :=
      Option.isSome_iff_exists.mp (by simpa using (h.mem x).mpr hx)
    rw [if_pos hx, ← h.count x, Std.HashMap.getD_eq_getD_getElem?, hcount]
    rfl
  · rw [if_neg hx]
    simpa using mt (h.mem x).mp hx

theorem sameCounts_tallied {A B : List Int32} {A_count B_count : Counts}
    (hA : Tallied A_count A) (hB : Tallied B_count B) :
    sameCounts A_count.toList B_count = true ↔ ∀ x ∈ A, A.count x - 1 = B.count x - 1 := by
  rw [sameCounts_iff]
  constructor
  · intro h x hx
    have hentry : (toKey x, A.count x - 1) ∈ A_count.toList := by
      rw [Std.HashMap.mem_toList_iff_getElem?_eq_some, hA.getElem?, if_pos hx]
    exact (h _ hentry).trans (hB.count x)
  · intro hcount entry hentry
    obtain ⟨key, value⟩ := entry
    rw [Std.HashMap.mem_toList_iff_getElem?_eq_some] at hentry
    have hmem : key ∈ A_count := by
      rw [← Std.HashMap.isSome_getElem?_iff_mem, hentry]
      rfl
    obtain ⟨x, rfl⟩ := hA.keys key hmem
    have hx := (hA.mem x).mp hmem
    rw [hA.getElem?, if_pos hx] at hentry
    rw [← Option.some.inj hentry, hcount x hx]
    exact (hB.count x).symm

end

/-! What the answer says. -/

instance int32IsTrans : IsTrans Int32 (· ≤ ·) := ⟨fun _ _ _ => Int32.le_trans⟩

theorem compareArrays_eq_true {A B : List Int32} :
    compareArrays A B = true ↔ A ≠ [] ∧ A.length = B.length ∧ B.Pairwise (· ≤ ·) ∧
      A.dedup.length = B.dedup.length ∧ ∀ x ∈ A, A.count x - 1 = B.count x - 1 := by
  by_cases hsize : A.length = 0 ∨ A.length ≠ B.length
  · unfold compareArrays
    rw [if_pos hsize]
    obtain hnil | hne := hsize
    · simp [List.length_eq_zero_iff.mp hnil]
    · simp [hne]
  · obtain ⟨hnil, hlen⟩ : A ≠ [] ∧ A.length = B.length := by simpa using hsize
    unfold compareArrays
    rw [if_neg hsize]
    cases B with
    | nil => exact absurd (List.length_eq_zero_iff.mp hlen) hnil
    | cons b B =>
      have hchain : (b :: b :: B).IsChain (· ≤ ·) ↔ (b :: B).Pairwise (· ≤ ·) := by
        rw [List.isChain_cons_cons, List.isChain_iff_pairwise]
        exact and_iff_right (Int32.le_refl b)
      have hA := tallied_foldl A
      have hB := tallied_foldl (b :: B)
      dsimp only
      rw [countLoop_eq hlen]
      by_cases hsorted : (b :: B).Pairwise (· ≤ ·)
      · rw [if_pos (hchain.mpr hsorted)]
        dsimp only
        rw [hA.size, hB.size]
        by_cases hdedup : A.dedup.length = (b :: B).dedup.length
        · rw [if_neg (not_not_intro hdedup), sameCounts_tallied hA hB]
          exact ⟨fun h => ⟨hnil, hlen, hsorted, hdedup, h⟩, fun h => h.2.2.2.2⟩
        · rw [if_pos hdedup]
          simp [hdedup]
      · rw [if_neg (mt hchain.mp hsorted)]
        simp [hsorted]

/-- `B` is the sort of a non-empty array `A`. -/
structure Matches (A B : List Int32) : Prop where
  nonempty : A ≠ [] ∧ B ≠ []
  length : A.length = B.length
  ascending : B.Pairwise (· ≤ ·)
  perm : B.Perm A

/-- Values that occur once in `A` are not looked for in `B`: there are as many values in `B`, some
of them others. -/
structure Fooled (A B : List Int32) : Prop where
  nonempty : A ≠ []
  length : A.length = B.length
  ascending : B.Pairwise (· ≤ ·)
  values : A.dedup.length = B.dedup.length
  occurs : ∀ x ∈ A, B.count x = A.count x ∨ A.count x = 1 ∧ x ∉ B
  missing : ∃ x ∈ A, x ∉ B

theorem perm_of_counts {A B : List Int32} (hlen : A.length = B.length)
    (hcount : ∀ x ∈ A, A.count x - 1 = B.count x - 1) (hmem : ∀ x ∈ A, x ∈ B) : B.Perm A := by
  have hsub : A.Subperm B := by
    rw [List.subperm_ext_iff]
    intro x hx
    have hA := List.count_pos_iff.mpr hx
    have hB := List.count_pos_iff.mpr (hmem x hx)
    have := hcount x hx
    omega
  exact (hsub.perm_of_length_le hlen.ge).symm

theorem fooled_iff {A B : List Int32} :
    Fooled A B ↔ compareArrays A B = true ∧ ∃ x ∈ A, x ∉ B := by
  have hoccurs : ∀ x ∈ A, (B.count x = A.count x ∨ A.count x = 1 ∧ x ∉ B) ↔
      A.count x - 1 = B.count x - 1 := by
    intro x hx
    have hA := List.count_pos_iff.mpr hx
    rw [← List.count_eq_zero]
    omega
  rw [compareArrays_eq_true]
  constructor
  · intro h
    exact ⟨⟨h.nonempty, h.length, h.ascending, h.values,
      fun x hx => (hoccurs x hx).mp (h.occurs x hx)⟩, h.missing⟩
  · intro hcase
    obtain ⟨⟨hnonempty, hlength, hascending, hvalues, hcount⟩, hmissing⟩ := hcase
    exact ⟨hnonempty, hlength, hascending, hvalues,
      fun x hx => (hoccurs x hx).mpr (hcount x hx), hmissing⟩

theorem Matches.compareArrays {A B : List Int32} (h : Matches A B) :
    Sorting.compareArrays A B = true := by
  refine compareArrays_eq_true.mpr ⟨h.nonempty.1, h.length, h.ascending, ?_, fun x _ => ?_⟩
  · exact h.perm.symm.dedup.length_eq
  · rw [h.perm.count_eq]

/-- The answer is right unless values that occur once were exchanged for others. -/
theorem compareArrays_right_iff (A B : List Int32) :
    (compareArrays A B = true ↔ Matches A B) ↔ ¬ Fooled A B := by
  constructor
  · intro h hfooled
    obtain ⟨htrue, x, hx, hmissing⟩ := fooled_iff.mp hfooled
    exact hmissing ((h.mp htrue).perm.mem_iff.mpr hx)
  · intro hnot
    constructor
    · intro htrue
      obtain ⟨hnonempty, hlength, hascending, -, hcount⟩ := compareArrays_eq_true.mp htrue
      have hmem : ∀ x ∈ A, x ∈ B := by
        intro x hx
        by_contra hmissing
        exact hnot (fooled_iff.mpr ⟨htrue, x, hx, hmissing⟩)
      have hperm := perm_of_counts hlength hcount hmem
      exact ⟨⟨hnonempty, fun hB => hnonempty (by simpa [hB] using hlength)⟩, hlength, hascending,
        hperm⟩
    · exact Matches.compareArrays

theorem compareArrays_wrong : ¬ ∀ A B : List Int32, compareArrays A B = true ↔ Matches A B := by
  intro h
  have htrue : compareArrays [1] [2] = true := by
    rw [compareArrays_eq_true]
    exact ⟨by simp, rfl, by simp, by simp, by simp⟩
  have hperm : [2].Perm [(1 : Int32)] := ((h [1] [2]).mp htrue).perm
  exact absurd (List.perm_singleton.mp hperm) (by decide)

end WylesLibs.Sorting
