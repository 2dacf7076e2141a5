import WylesLibs.Csv.Storing
import WylesLibs.Library.Runs

/-! One reader, read batch by batch. -/
namespace WylesLibs.Csv
open Library WylesLibs.Stream Datastructures

section
variable {separator : UInt8} {n steps : Nat} {l : Lexer} {pending : Option Record}
  {old records : List Record}

theorem batchLoop_records_ne_nil (steps : Nat) (l : Lexer) :
    ∀ r ∈ (batchLoop separator steps n l pending).records, r ≠ [] := by
  induction steps generalizing n l pending with
  | zero => cases n <;> simp [batchLoop]
  | succ steps ih =>
    cases n with
    | zero => simp [batchLoop]
    | succ n =>
      rw [batchLoop]
      cases (lex separator l).1 with
      | skipped => exact ih _
      | taken => exact ih _
      | field str => exact ih _
      | last str =>
        rw [List.forall_mem_cons]
        exact ⟨by simp, ih _⟩
      | ended => simp
      | failed w => simp

/-- No record is shorter than the row it is stored over. -/
def Covers (old records : List Record) : Prop :=
  ∀ p ∈ old.zip records, p.1.length ≤ p.2.length

instance : Decidable (Covers old records) :=
  inferInstanceAs (Decidable (∀ p ∈ old.zip records, p.1.length ≤ p.2.length))

theorem Covers.cons {r : Record} (h : Covers old (r :: records)) :
    cover r (old.headD []) = r ∧ Covers old.tail records := by
  cases old with
  | nil => exact ⟨cover_nil_right, by simp [Covers]⟩
  | cons o old =>
    obtain ⟨hle, hrest⟩ := List.forall_mem_cons.mp h
    exact ⟨by simp [cover, List.drop_eq_nil_of_le hle], hrest⟩

theorem Covers.sizes (h : Covers old records) : sizes old records = records.map List.length := by
  induction records generalizing old with
  | nil => rfl
  | cons r records ih =>
    obtain ⟨hr, hrest⟩ := h.cons
    rw [Csv.sizes, hr, ih hrest, List.map_cons]

theorem Covers.rows (h : Covers old records) :
    coverRows old records = records ++ old.drop records.length := by
  induction records generalizing old with
  | nil => rfl
  | cons r records ih =>
    obtain ⟨hr, hrest⟩ := h.cons
    rw [coverRows, hr, ih hrest, List.drop_tail, List.length_cons, List.cons_append]

theorem fits_iff {size : Nat} {xs : List Nat} (hxs : ∀ x ∈ xs, x ≠ 0) :
    Fits size xs ↔ ∀ x ∈ xs, x = settle size xs := by
  induction xs generalizing size with
  | nil => simp [Fits]
  | cons x xs ih =>
    obtain ⟨hx, hxs⟩ := List.forall_mem_cons.mp hxs
    rw [Fits, ih hxs, settle_cons xs hx, List.forall_mem_cons]
    rfl

end

/-- `first` is not data of the source: the number of fields of the first record that was read. -/
structure Batches where
  csv : CSV
  first : Option Nat

namespace Batches

/-- What a call takes. -/
def taken (s : Batches) (rCount : Nat) : Batch := batch s.csv.separator rCount s.csv.io

def firstSize (s : Batches) (rCount : Nat) : Option Nat :=
  s.first <|> (s.taken rCount).records.head?.map List.length

/-- A call may throw; the reader can be used again. -/
def step (s : Batches) (rCount : Nat) : Option Batches :=
  some ⟨(read rCount s.csv).2, s.firstSize rCount⟩

/-- A call that returns leaves the records it took in the rows and nothing else; one that meets a
record of another size than the first throws. -/
def Sound (s : Batches) (rCount : Nat) : Prop :=
  ((read rCount s.csv).1 = .ok () → (read rCount s.csv).2.rows = (s.taken rCount).records) ∧
    ((∃ r ∈ (s.taken rCount).records, some r.length ≠ s.firstSize rCount) →
      ∃ w, (read rCount s.csv).1 = .thrown w)

/-- The pointers that the call reads are null. No record is shorter than the row it goes over; and
unless the call has to throw anyhow, it takes as many records as there are rows and stops at the end
of one. -/
def Clean (s : Batches) (rCount : Nat) : Prop :=
  Viewed s.csv.views 0 (s.taken rCount) ∧ Covers s.csv.rows (s.taken rCount).records ∧
    ((s.taken rCount).ending = .ok () →
      (∀ r ∈ (s.taken rCount).records, some r.length = s.firstSize rCount) →
        s.csv.rows.length ≤ (s.taken rCount).records.length ∧ (s.taken rCount).pending = none)

variable {s : Batches} {rCount : Nat}

theorem read_stored (s : Batches) (rCount : Nat) : ∃ o,
    read rCount s.csv = (o.1, o.2.csv) ∧
      Stored [] s.csv.rows s.csv.separator s.csv.recordSize s.csv.views (s.taken rCount) o := by
  refine ⟨_, rfl, ?_⟩
  have hstands : Stands [] s.csv.rows none ⟨s.csv, false, [], 0, 0⟩ :=
    ⟨rfl, rfl, rfl, fun hpending => absurd rfl hpending⟩
  have h := readLoop_stored _ rCount hstands (Nat.lt_succ_self _)
  rw [List.length_nil, Nat.zero_add] at h
  exact h

theorem taken_sizes_ne_zero (s : Batches) (rCount : Nat) :
    ∀ x ∈ (s.taken rCount).records.map List.length, x ≠ 0 := by
  intro x hx
  obtain ⟨r, hr, rfl⟩ := List.mem_map.mp hx
  exact mt List.length_eq_zero_iff.mp (batchLoop_records_ne_nil _ _ r hr)

/-- The record size is that of the first record. -/
structure Tracks (s : Batches) : Prop where
  recordSize : s.csv.recordSize = s.first.getD 0
  first : s.first ≠ some 0

theorem Tracks.firstSize (h : s.Tracks) {sizes : List Nat}
    (hsizes : sizes = (s.taken rCount).records.map List.length) :
    settle s.csv.recordSize sizes = (s.firstSize rCount).getD 0 := by
  rw [h.recordSize, Batches.firstSize, settle, hsizes]
  cases hfirst : s.first with
  | none => cases (s.taken rCount).records <;> simp
  | some k =>
    have hk : k ≠ 0 := fun hzero => h.first (hzero ▸ hfirst)
    simp [hk]

theorem Tracks.step (h : s.Tracks) (hclean : s.Clean rCount) :
    Tracks ⟨(read rCount s.csv).2, s.firstSize rCount⟩ := by
  obtain ⟨o, hread, hstored⟩ := read_stored s rCount
  constructor
  · rw [hread]
    exact (hstored.recordSize hclean.1).trans (h.firstSize hclean.2.1.sizes)
  · unfold Batches.firstSize
    cases hfirst : s.first with
    | none =>
      have hne := taken_sizes_ne_zero s rCount
      cases hrecords : (s.taken rCount).records with
      | nil => simp
      | cons r records =>
        rw [hrecords] at hne
        simpa using hne r.length (by simp)
    | some k => simpa [hfirst] using h.first

theorem Tracks.fits_iff (h : s.Tracks) (hclean : s.Clean rCount) :
    Fits s.csv.recordSize (sizes s.csv.rows (s.taken rCount).records) ↔
      ∀ r ∈ (s.taken rCount).records, some r.length = s.firstSize rCount := by
  rw [hclean.2.1.sizes, Csv.fits_iff (taken_sizes_ne_zero s rCount), h.firstSize rfl,
    List.forall_mem_map]
  refine forall₂_congr fun r hr => ?_
  have hsome : ∃ k, s.firstSize rCount = some k := by
    unfold Batches.firstSize
    cases s.first with
    | none => exact ⟨_, by rw [List.head?_eq_some_head (List.ne_nil_of_mem hr)]; rfl⟩
    | some k => exact ⟨k, rfl⟩
  obtain ⟨k, hk⟩ := hsome
  simp [hk]

theorem Tracks.sound (h : s.Tracks) (hclean : s.Clean rCount) : s.Sound rCount := by
  obtain ⟨o, hread, hstored⟩ := read_stored s rCount
  have hiff := h.fits_iff hclean
  rw [Sound, hread]
  constructor
  · intro hok
    by_cases hfits : Fits s.csv.recordSize (sizes s.csv.rows (s.taken rCount).records)
    · obtain ⟨hending, hrows, -⟩ := hstored.fits hclean.1 hfits
      obtain ⟨hlen, hpending⟩ := hclean.2.2 (hending.symm.trans hok) (hiff.mp hfits)
      rw [hrows, Batch.rows, hpending, Option.toList_none, List.append_nil, List.nil_append,
        hclean.2.1.rows, List.drop_eq_nil_of_le hlen, List.append_nil]
    · have hthrown := hstored.misfits hclean.1 hfits
      rw [hthrown] at hok
      cases hok
  · rintro ⟨r, hr, hne⟩
    exact ⟨_, hstored.misfits hclean.1 fun hfits => hne (hiff.mp hfits r hr)⟩

/-- A new reader, and any calls that each find no row longer than the record it is for. -/
theorem sound_of_clean {io : List UInt8} {separator : UInt8} {views : Views} {csv : CSV}
    (hmake : make io separator views = .ok csv) (calls : List Nat)
    (hclean : Along step Clean ⟨csv, none⟩ calls) : Along step Sound ⟨csv, none⟩ calls := by
  have hstart : Tracks ⟨csv, none⟩ := by
    unfold make at hmake
    split at hmake
    · cases hmake
    · cases hmake
      exact ⟨rfl, by simp⟩
  generalize (⟨csv, none⟩ : Batches) = s at hclean hstart
  induction calls generalizing s with
  | nil => trivial
  | cons rCount calls ih =>
    obtain ⟨hfirst, hrest⟩ := hclean
    refine ⟨hstart.sound hfirst, fun t ht => ?_⟩
    cases ht
    exact ih _ (hrest _ rfl) (hstart.step hfirst)

/-- "a,b\n" and then "c,d\n". -/
theorem sound_two_batches : Along step Sound
    ⟨⟨bytes ['a', ',', 'b', '\n', 'c', ',', 'd', '\n'] ++ [eofByte], 0, Byte.comma, [], [],
      Views.zeros⟩, none⟩ [1, 1] := by
  have hmake : make (bytes ['a', ',', 'b', '\n', 'c', ',', 'd', '\n'] ++ [eofByte]) Byte.comma
      Views.zeros = .ok ⟨bytes ['a', ',', 'b', '\n', 'c', ',', 'd', '\n'] ++ [eofByte], 0,
        Byte.comma, [], [], Views.zeros⟩ := rfl
  refine sound_of_clean hmake [1, 1]
    ⟨⟨fun _ _ => rfl, by decide +kernel, fun _ _ => by decide +kernel⟩, fun t ht => ?_⟩
  cases ht
  exact ⟨⟨fun _ _ => rfl, by decide +kernel, fun _ _ => by decide +kernel⟩, fun _ _ => trivial⟩

/-- "a,b\n" and then "c\n", which the second cell of the first batch makes up. -/
theorem not_sound_short_record : ¬ Along step Sound
    ⟨⟨bytes ['a', ',', 'b', '\n', 'c', '\n'] ++ [eofByte], 0, Byte.comma, [], [], Views.zeros⟩, none⟩
    [1, 1] := by
  rintro ⟨-, hrest⟩
  obtain ⟨⟨-, hthrows⟩, -⟩ := hrest _ rfl
  obtain ⟨w, hw⟩ := hthrows ⟨bytes ['c'] :: [], by decide +kernel, by decide +kernel⟩
  have hreturns : ((read 1 (read 1 ⟨bytes ['a', ',', 'b', '\n', 'c', '\n'] ++ [eofByte], 0,
      Byte.comma, [], [], Views.zeros⟩).2).1).toOption = some () := by decide +kernel
  rw [hw] at hreturns
  cases hreturns

end Batches
end WylesLibs.Csv
