import WylesLibs.Datastructures.Array
import WylesLibs.Datastructures

/-! `Array` does what the list of its contents does. -/
namespace WylesLibs.Datastructures
open Library
variable {T : Type}

/-- A buffer in which the cells below `i` have been written with those of `els`. -/
def written (els : List T) (base : List (Option T)) (i : Nat) : List (Option T) :=
  cells (els.take i) ++ base.drop i

theorem addElement_written {els : List T} {base : List (Option T)} {i : Nat} {el : T}
    (hel : els[i]? = some el) (hbase : i < base.length) :
    addElement (written els base i) i el = .ok (written els base (i + 1)) := by
  obtain ⟨hi, rfl⟩ := List.getElem?_eq_some_iff.mp hel
  have hcut : written els base i = cells (els.take i) ++ base[i] :: base.drop (i + 1) := by
    rw [written, List.drop_eq_getElem_cons hbase]
  have htake : els.take (i + 1) = els.take i ++ [els[i]] := by
    rw [List.take_add_one, hel]
    rfl
  rw [addElement_of_eq _ _ hcut (by simp; omega), written, htake, cells_append,
    List.append_assoc]
  rfl

theorem getElem?_written {els : List T} {base : List (Option T)} {i j : Nat} (hij : i ≤ j)
    (hels : i ≤ els.length) : (written els base i)[j]? = base[j]? := by
  have hlen : (cells (els.take i)).length = i := by simp [hels]
  rw [written, List.getElem?_append_right (by omega), hlen, List.getElem?_drop]
  congr 1
  omega

theorem length_written {els : List T} {base : List (Option T)} {i : Nat}
    (hels : i ≤ els.length) (hbase : i ≤ base.length) :
    (written els base i).length = base.length := by
  rw [written, List.length_append, length_cells, List.length_take, List.length_drop]
  omega

/-- The buffer holds `l` in its first cells. -/
def Filled (buffer : List (Option T)) (l : List T) : Prop :=
  ∀ (j : Nat) (el : T), l[j]? = some el → buffer[j]? = some (some el)

theorem Filled.length_le {buffer : List (Option T)} {l : List T} (h : Filled buffer l) :
    l.length ≤ buffer.length := by
  by_contra hlt
  have hl : l[buffer.length]? = some l[buffer.length] := List.getElem?_eq_getElem (by omega)
  have hbuf := h _ _ hl
  simp at hbuf

theorem filled_append (els : List T) (spare : List (Option T)) :
    Filled (cells els ++ spare) els := by
  intro j el hel
  obtain ⟨hj, rfl⟩ := List.getElem?_eq_some_iff.mp hel
  rw [List.getElem?_append_left (by simpa using hj)]
  simp [cells, hj]

theorem filled_written {els : List T} {base : List (Option T)} :
    Filled (written els base els.length) els := by
  rw [written, List.take_length]
  exact filled_append els _

namespace Array

theorem copyUpTo_ok {source target : List (Option T)} {l els : List T} {pos : Nat}
    (hsource : Filled source l) (hpos : pos ≤ l.length) (hels : els.take pos = l.take pos)
    (htarget : pos ≤ target.length) :
    copyUpTo pos source target = .ok (written els target pos) := by
  have hturn : ∀ k s, 0 ≤ k → k < 0 + pos → s = written els target k →
      ∃ t, ((load source k).bind fun el => addElement s k el) = .ok t ∧
        t = written els target (k + 1) := by
    rintro k _ - hk rfl
    have hl : l[k]? = some l[k] := List.getElem?_eq_getElem (by omega)
    have hel : els[k]? = some l[k] := by
      have htake : (els.take pos)[k]? = (l.take pos)[k]? := by rw [hels]
      rwa [List.getElem?_take_of_lt (by omega), List.getElem?_take_of_lt (by omega), hl] at htake
    refine ⟨_, ?_, rfl⟩
    rw [load_of_getElem? (hsource k _ hl), Outcome.bind_ok,
      addElement_written hel (by omega)]
  obtain ⟨t, ht, rfl⟩ := forCount_ok hturn (by simp [written] : target = written els target 0)
  rw [copyUpTo, ht, Nat.zero_add]

/-! `insert` -/

theorem nextSlot_mod {n : Nat} (hn : 0 < n) (k : Nat) : nextSlot n (k % n) = (k + 1) % n := by
  have hlt := Nat.mod_lt k hn
  rw [nextSlot, ← Nat.mod_add_mod]
  split
  · rename_i heq
    rw [heq, Nat.mod_self]
  · rw [Nat.mod_eq_of_lt (by omega : k % n + 1 < n)]

/-- Neighbours of a circle of `n` slots do not share one. -/
theorem slot_ne {n a b : Nat} (hlt : a < b) (hn : b < a + n) : a % n ≠ b % n := by
  intro heq
  have hdvd : n ∣ b - a := (Nat.modEq_iff_dvd' hlt.le).mp heq
  have hle := Nat.le_of_dvd (by omega) hdvd
  omega

/-- Before turn `i` the bucket holds the elements that have been read and not yet written back: at
most `n` of them, which are neighbours. -/
structure InBucket (l : List T) (pos n i : Nat) (m : Inserting T) : Prop where
  length : m.bucket.length = n
  held : ∀ j el, i ≤ j + n → pos ≤ j → j < i → l[j]? = some el →
    m.bucket[(j - pos) % n]? = some (some el)
  push : i ≤ l.length → m.bucketPush = (i - pos) % n
  pop : m.bucketPop = (i - (pos + n)) % n

/-- The value that turn `i` writes. -/
theorem inserted_getElem? {l els : List T} {pos i : Nat} (hpos : pos ≤ l.length) (hi : pos ≤ i) :
    (l.take pos ++ (els ++ l.drop pos))[i]? =
      if i < pos + els.length then els[i - pos]? else l[i - els.length]? := by
  have hlen : (l.take pos).length = pos := by simp [hpos]
  rw [List.getElem?_append_right (by omega), hlen]
  split
  · rw [List.getElem?_append_left (by omega)]
  · rw [List.getElem?_append_right (by omega), List.getElem?_drop]
    congr 1
    omega

section
variable {l els : List T} {pos i : Nat} {old : Option (List (Option T))} {m : Inserting T}

theorem insertTurn_value (hn : els ≠ []) (hpos : pos ≤ l.length) (hi : pos ≤ i)
    (hlt : i < l.length + els.length) (h : InBucket l pos els.length i m) :
    ∃ value bucketPop, (l.take pos ++ (els ++ l.drop pos))[i]? = some value ∧
      bucketPop = (i + 1 - (pos + els.length)) % els.length ∧
      (if i < pos + els.length then
        (load (cells els) (i - pos)).bind fun value => .ok (value, m.bucketPop)
      else
        (load m.bucket m.bucketPop).bind fun value =>
          .ok (value, nextSlot els.length m.bucketPop)) = .ok (value, bucketPop) := by
  have hn' : 0 < els.length := List.length_pos_iff.mpr hn
  rw [inserted_getElem? hpos hi]
  by_cases hnew : i < pos + els.length
  · refine ⟨els[i - pos], m.bucketPop, ?_, ?_, ?_⟩
    · rw [if_pos hnew]
      exact List.getElem?_eq_getElem (by omega)
    · rw [h.pop, Nat.sub_eq_zero_of_le (by omega), Nat.sub_eq_zero_of_le (by omega)]
    · rw [if_pos hnew, @load_of_getElem? _ _ _ (els[i - pos]) (by simp [cells]), Outcome.bind_ok]
  · have hl : l[i - els.length]? = some l[i - els.length] := List.getElem?_eq_getElem (by omega)
    have hslot := h.held (i - els.length) _ (by omega) (by omega) (by omega) hl
    have hpop : m.bucketPop = (i - els.length - pos) % els.length := by
      rw [h.pop, Nat.sub_sub, Nat.add_comm]
    refine ⟨l[i - els.length], nextSlot els.length m.bucketPop, ?_, ?_, ?_⟩
    · rw [if_neg hnew, hl]
    · rw [h.pop, nextSlot_mod hn', Nat.sub_add_comm (by omega)]
    · rw [if_neg hnew, load_of_getElem? (by rwa [hpop]), Outcome.bind_ok]

theorem insertTurn_bucket (hn : els ≠ []) (hi : pos ≤ i)
    (hsource : ∀ el, l[i]? = some el → (old.getD m.newBuf)[i]? = some (some el)) (h : InBucket l pos els.length i m) :
    ∃ bucket bucketPush,
      (if i < l.length then
        (load (old.getD m.newBuf) i).bind fun el =>
        (addElement m.bucket m.bucketPush el).bind fun bucket =>
          .ok (bucket, nextSlot els.length m.bucketPush)
      else
        .ok (m.bucket, m.bucketPush)) = .ok (bucket, bucketPush) ∧
      ∀ newBuf, InBucket l pos els.length (i + 1)
        { newBuf, bucket, bucketPush, bucketPop := (i + 1 - (pos + els.length)) % els.length } := by
  have hn' : 0 < els.length := List.length_pos_iff.mpr hn
  by_cases hlt : i < l.length
  · have hl : l[i]? = some l[i] := List.getElem?_eq_getElem hlt
    have hpush : m.bucketPush = (i - pos) % els.length := h.push hlt.le
    have hroom : m.bucketPush < m.bucket.length := by
      rw [hpush, h.length]
      exact Nat.mod_lt _ hn'
    refine ⟨m.bucket.set m.bucketPush (some l[i]), nextSlot els.length m.bucketPush, ?_, ?_⟩
    · rw [if_pos hlt, load_of_getElem? (hsource _ hl), Outcome.bind_ok, addElement, if_pos hroom,
        Outcome.bind_ok]
    · intro newBuf
      refine ⟨by simp [h.length], ?_, ?_, rfl⟩
      · intro j el hj hpos hlt' hel
        obtain rfl | hne := Nat.eq_or_lt_of_le (Nat.lt_succ_iff.mp hlt')
        · obtain rfl : l[j] = el := Option.some.inj (hl.symm.trans hel)
          rw [← hpush, List.getElem?_set_self hroom]
        · have hslot : m.bucketPush ≠ (j - pos) % els.length := by
            rw [hpush]
            exact (slot_ne (by omega) (by omega)).symm
          rw [List.getElem?_set_ne hslot]
          exact h.held j el (by omega) hpos hne hel
      · intro _
        rw [hpush, nextSlot_mod hn', Nat.sub_add_comm hi]
  · refine ⟨m.bucket, m.bucketPush, by rw [if_neg hlt], ?_⟩
    intro newBuf
    refine ⟨h.length, ?_, fun hle => absurd hle (by omega), rfl⟩
    intro j el hj hpos hlt' hel
    have hlen := (List.getElem?_eq_some_iff.mp hel).1
    exact h.held j el (by omega) hpos (by omega) hel

end

/-- The loop of `insert`: `base` is the buffer it writes to, as it finds it. -/
theorem insertLoop_ok {l els : List T} {pos : Nat} {old : Option (List (Option T))}
    {base : List (Option T)} (hn : els ≠ []) (hpos : pos ≤ l.length)
    (hsource : Filled (old.getD base) l) (hroom : l.length + els.length ≤ base.length) :
    ∃ m, forCount (insertTurn old l.length pos els) pos (l.length + els.length - pos)
        { newBuf := written (l.take pos ++ (els ++ l.drop pos)) base pos,
          bucket := newCArray T els.length, bucketPush := 0, bucketPop := 0 } = .ok m ∧
      m.newBuf = written (l.take pos ++ (els ++ l.drop pos)) base (l.length + els.length) := by
  have hlen : (l.take pos ++ (els ++ l.drop pos)).length = l.length + els.length := by
    simp
    omega
  have hturn : ∀ k (m : Inserting T), pos ≤ k → k < pos + (l.length + els.length - pos) →
      m.newBuf = written (l.take pos ++ (els ++ l.drop pos)) base k ∧
        InBucket l pos els.length k m →
      ∃ m', insertTurn old l.length pos els k m = .ok m' ∧
        m'.newBuf = written (l.take pos ++ (els ++ l.drop pos)) base (k + 1) ∧
        InBucket l pos els.length (k + 1) m' := by
    intro k m hk hlt hcase
    obtain ⟨hbuf, hbucket⟩ := hcase
    have hread : ∀ el, l[k]? = some el → (old.getD m.newBuf)[k]? = some (some el) := by
      intro el hel
      have := hsource k el hel
      cases old with
      | none =>
        rw [Option.getD_none, hbuf, getElem?_written le_rfl (by omega)]
        exact this
      | some old => exact this
    obtain ⟨value, bucketPop, hvalue, rfl, heq⟩ := insertTurn_value hn hpos hk (by omega) hbucket
    obtain ⟨bucket, bucketPush, heq', hbucket'⟩ := insertTurn_bucket hn hk hread hbucket
    refine ⟨_, ?_, rfl, hbucket' _⟩
    rw [insertTurn, heq, Outcome.bind_ok]
    dsimp only
    rw [heq', Outcome.bind_ok, hbuf, addElement_written hvalue (by omega), Outcome.bind_ok]
    rfl
  have hstart : InBucket l pos els.length pos
      ({ newBuf := written (l.take pos ++ (els ++ l.drop pos)) base pos,
         bucket := newCArray T els.length, bucketPush := 0, bucketPop := 0 } : Inserting T) := by
    refine ⟨length_newCArray _, fun j el _ hge hlt => absurd hlt (by omega), ?_, ?_⟩
    · simp
    · simp
  obtain ⟨m, hm, hbuf, -⟩ := forCount_ok hturn ⟨rfl, hstart⟩
  refine ⟨m, hm, ?_⟩
  rw [hbuf]
  congr 1
  omega

/-- The array has the contents `l`. -/
structure Represents (a : Array T) (l : List T) : Prop where
  size : a.eSize = l.length
  filled : Filled a.eBuf l
  cap : a.eBuf.length = a.eCap

theorem Represents.length_le {a : Array T} {l : List T} (h : Represents a l) :
    l.length ≤ a.eCap := h.cap ▸ h.filled.length_le

theorem represents_withCap (initialCap : Nat) : Represents (withCap initialCap : Array T) [] :=
  ⟨rfl, fun j el hel => by simp at hel, by simp [withCap]⟩

section
variable {a : Array T} {l els : List T} {pos numEls : Nat}

theorem upsized_ok {size : Nat} (h : size < 2 ^ 50) : upsized size = .ok (size * 7 / 4) := by
  rw [upsized, if_pos]
  unfold sizeRange
  omega

theorem written_self (h : Filled a.eBuf l) (hpos : pos ≤ l.length) (hels : els.take pos = l.take pos) :
    written els a.eBuf pos = a.eBuf := by
  have hcells : cells (els.take pos) = a.eBuf.take pos := by
    rw [hels]
    refine List.ext_getElem? fun j => ?_
    by_cases hj : j < pos
    · have hl : l[j]? = some l[j] := List.getElem?_eq_getElem (by omega)
      rw [cells, List.getElem?_map, List.getElem?_take_of_lt hj, List.getElem?_take_of_lt hj,
        h j _ hl, hl]
      rfl
    · have hle := h.length_le
      rw [List.getElem?_eq_none (by simp; omega), List.getElem?_eq_none (by simp; omega)]
  rw [written, hcells, List.take_append_drop]

/-- The buffer that is written to, fresh or the array's own, holds the elements below `pos`. -/
theorem target_ok (grown : Prop) [Decidable grown] (newCap size : Nat) (h : Represents a l)
    (hpos : pos ≤ l.length) (hels : els.take pos = l.take pos) (hsize : pos ≤ size)
    (hnew : grown → size ≤ newCap) (hold : ¬ grown → size ≤ a.eCap) :
    ∃ eCap old base,
      (if grown then
        (copyUpTo pos a.eBuf (newCArray T newCap)).bind fun newBuf =>
          .ok (newCap, some a.eBuf, newBuf)
      else
        .ok (a.eCap, none, a.eBuf)) = .ok (eCap, old, written els base pos) ∧
      base.length = eCap ∧ size ≤ eCap ∧ Filled (old.getD base) l := by
  by_cases hg : grown
  · have hroom : pos ≤ (newCArray T newCap).length := by
      rw [length_newCArray]
      exact hsize.trans (hnew hg)
    refine ⟨newCap, some a.eBuf, newCArray T newCap, ?_, length_newCArray _, hnew hg, h.filled⟩
    rw [if_pos hg, copyUpTo_ok h.filled hpos hels hroom, Outcome.bind_ok]
  · refine ⟨a.eCap, none, a.eBuf, ?_, h.cap, hold hg, h.filled⟩
    rw [if_neg hg, written_self h.filled hpos hels]

theorem inserted_ok (h : Represents a l) (hpos : pos ≤ l.length) (hn : els ≠ [])
    (hsize : l.length + els.length < 2 ^ 50) :
    ∃ a', inserted pos els a = .ok a' ∧ Represents a' (l.take pos ++ (els ++ l.drop pos)) ∧
      a'.eSorted = .unsorted := by
  have hlen : (l.take pos ++ (els ++ l.drop pos)).length = l.length + els.length := by
    simp
    omega
  have htake : (l.take pos ++ (els ++ l.drop pos)).take pos = l.take pos := by
    simp [hpos]
  have hup : upsized (els.length + l.length) = .ok ((els.length + l.length) * 7 / 4) :=
    upsized_ok (by omega)
  obtain ⟨eCap, old, base, htarget, hbase, hcap, hsource⟩ :=
    target_ok (els.length + l.length > a.eCap) ((els.length + l.length) * 7 / 4)
      (l.length + els.length) h hpos htake (by omega) (fun _ => by omega) (fun hle => by omega)
  obtain ⟨m, hm, hbuf⟩ := insertLoop_ok hn hpos hsource (hcap.trans_eq hbase.symm)
  refine ⟨{ eBuf := m.newBuf, eCap, eSize := l.length + els.length, eSorted := .unsorted },
    ?_, ?_, rfl⟩
  · rw [inserted, h.size, hup]
    simp only [Outcome.bind_ok]
    rw [htarget, Outcome.bind_ok]
    dsimp only
    rw [hm, Outcome.bind_ok]
  · refine ⟨hlen.symm, ?_, ?_⟩
    · rw [hbuf, ← hlen]
      exact filled_written
    · rw [hbuf, length_written hlen.ge (hcap.trans_eq hbase.symm), hbase]

/-- Putting in nothing at the end moves nothing. -/
theorem inserted_nil_end (h : Represents a l) :
    inserted l.length [] a = .ok { a with eSorted := .unsorted } := by
  have hle := h.length_le
  rw [inserted, h.size, if_neg (by simp; omega), Outcome.bind_ok]
  simp [← h.size]

/-! `remove` -/

theorem removed_getElem? {l : List T} {pos numEls i : Nat} (hpos : pos ≤ l.length)
    (hi : pos ≤ i) : (l.take pos ++ l.drop (pos + numEls))[i]? = l[i + numEls]? := by
  have hlen : (l.take pos).length = pos := by simp [hpos]
  rw [List.getElem?_append_right (by omega), hlen, List.getElem?_drop]
  congr 1
  omega

theorem removeLoop_ok {old : Option (List (Option T))} {base : List (Option T)}
    (hpos : pos + numEls ≤ l.length) (hlen : l.length < 2 ^ 50)
    (hsource : Filled (old.getD base) l) (hroom : l.length - numEls ≤ base.length) :
    forCount (removeTurn old l.length numEls) pos (l.length - pos)
        (written (l.take pos ++ l.drop (pos + numEls)) base pos) =
      .ok (written (l.take pos ++ l.drop (pos + numEls)) base (l.length - numEls)) := by
  have hlen' : (l.take pos ++ l.drop (pos + numEls)).length = l.length - numEls := by
    simp
    omega
  have hturn : ∀ k s, pos ≤ k → k < pos + (l.length - pos) →
      s = written (l.take pos ++ l.drop (pos + numEls)) base (min k (l.length - numEls)) →
      ∃ t, removeTurn old l.length numEls k s = .ok t ∧
        t = written (l.take pos ++ l.drop (pos + numEls)) base (min (k + 1) (l.length - numEls)) := by
    rintro k _ hk hlt rfl
    have hwrap : (k + numEls) % sizeRange = k + numEls := Nat.mod_eq_of_lt (by
      unfold sizeRange
      omega)
    refine ⟨_, ?_, rfl⟩
    rw [removeTurn, hwrap]
    by_cases hin : k + numEls < l.length
    · rw [if_pos hin, Nat.min_eq_left (by omega), Nat.min_eq_left (by omega)]
      have hl : l[k + numEls]? = some l[k + numEls] := List.getElem?_eq_getElem hin
      have hread : (old.getD (written (l.take pos ++ l.drop (pos + numEls)) base k))[k + numEls]? =
          some (some l[k + numEls]) := by
        have h := hsource _ _ hl
        cases old with
        | none =>
          rw [Option.getD_none, getElem?_written (by omega) (by omega)]
          exact h
        | some old => exact h
      have hel : (l.take pos ++ l.drop (pos + numEls))[k]? = some l[k + numEls] := by
        rw [removed_getElem? (by omega) hk, hl]
      rw [load_of_getElem? hread, Outcome.bind_ok, addElement_written hel (by omega)]
    · rw [if_neg hin, Nat.min_eq_right (by omega), Nat.min_eq_right (by omega)]
  have hstart : written (l.take pos ++ l.drop (pos + numEls)) base pos =
      written (l.take pos ++ l.drop (pos + numEls)) base (min pos (l.length - numEls)) := by
    rw [Nat.min_eq_left (by omega)]
  obtain ⟨t, ht, rfl⟩ := forCount_ok hturn hstart
  rw [ht]
  congr 2
  omega

theorem minus_of_le {x y : Nat} (hle : y ≤ x) (hx : x < 2 ^ 50) : minus x y = x - y := by
  unfold minus sizeRange
  omega

theorem removed_ok (h : Represents a l) (hpos : pos + numEls ≤ l.length)
    (hlen : l.length < 2 ^ 50) :
    ∃ a', removed pos numEls a = .ok a' ∧ Represents a' (l.take pos ++ l.drop (pos + numEls)) ∧
      a'.eSorted = a.eSorted := by
  have hlen' : (l.take pos ++ l.drop (pos + numEls)).length = l.length - numEls := by
    simp
    omega
  have htake : (l.take pos ++ l.drop (pos + numEls)).take pos = l.take pos := by
    simp only [List.take_append, List.length_take, List.take_take]
    rw [Nat.min_self, Nat.min_eq_left (by omega)]
    simp
  have hup : upsized (minus l.length numEls) = .ok ((l.length - numEls) * 7 / 4) := by
    rw [minus_of_le (by omega) hlen]
    exact upsized_ok (by omega)
  have hle := h.length_le
  obtain ⟨eCap, old, base, htarget, hbase, hcap, hsource⟩ :=
    target_ok ((l.length - numEls) * 7 / 4 < a.eCap / 2) ((l.length - numEls) * 7 / 4)
      (l.length - numEls) h (by omega) htake (by omega) (fun _ => by omega) (fun _ => by omega)
  have hloop := removeLoop_ok hpos hlen hsource (hcap.trans_eq hbase.symm)
  refine ⟨⟨written (l.take pos ++ l.drop (pos + numEls)) base (l.length - numEls), eCap,
    l.length - numEls, a.eSorted⟩, ?_, ?_, rfl⟩
  · rw [removed, h.size, hup]
    simp only [Outcome.bind_ok]
    rw [htarget, Outcome.bind_ok]
    dsimp only
    rw [hloop, Outcome.bind_ok, minus_of_le (by omega) hlen]
  · refine ⟨hlen'.symm, ?_, ?_⟩
    · rw [← hlen']
      exact filled_written
    · rw [length_written hlen'.ge (hcap.trans_eq hbase.symm), hbase]

end
end Array
end WylesLibs.Datastructures
