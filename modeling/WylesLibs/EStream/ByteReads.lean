import WylesLibs.EStream.ByteStream
import WylesLibs.EStream.Reads

/-! What the reads of `ByteEStream` come to on a list. -/
namespace WylesLibs.Stream
open Library
variable {κ ρ D : Type}

/-! Strings of a given length. -/

theorem feed_collected_bytes (last : Bool) (as data : List UInt8) :
    feed (collected last) as ((none, ⟨data⟩) : Option (NullTask UInt8) × ByteStringCollector) =
      .ok (none, ⟨data ++ as⟩) := by
  induction as generalizing data with
  | nil => simp
  | cons a as ih => simp [feed_cons, collected, Collector.accumulate, ih]

theorem readString_none (n : Nat) (l : List UInt8) :
    readString (n + 1) (none : Option (NullTask UInt8)) l =
      match l.drop n with
      | [] => .thrown endOfData
      | u :: rest => .ok (l.take n ++ [u], rest) := by
  have hread := folds_collected.streamCollect_num ([] : List UInt8) n
    (none : Option (NullTask UInt8)) (⟨[]⟩ : ByteStringCollector) l trivial
  simp only [readString, Prog.bind_apply, hread, Option.map_none, Collector.init,
    feed_collected_bytes, Outcome.bind_ok]
  cases l.drop n with
  | nil => rfl
  | cons u rest => simp [collected, Collector.accumulate, finish, flushTask, Collector.collect]

theorem readString_two (a b : UInt8) (rest : List UInt8) :
    readString 2 (none : Option (NullTask UInt8)) (a :: b :: rest) = .ok ([a, b], rest) :=
  readString_none 1 (a :: b :: rest)

theorem readString_two_inv {l s rest : List UInt8}
    (h : readString 2 (none : Option (NullTask UInt8)) l = .ok (s, rest)) :
    ∃ a b, l = a :: b :: rest := by
  rw [readString_none 1 l] at h
  match l, h with
  | a :: b :: l, h =>
    cases h
    exact ⟨a, b, rfl⟩

/-! Strings that are to match a given one. -/

/-- What the strict task makes of an element. -/
def exactly (_ : Bool) (c : UInt8)
    (p : Option (ReaderTaskExact (NullTask UInt8)) × ByteStringCollector) :
    Outcome (Option (ReaderTaskExact (NullTask UInt8)) × ByteStringCollector) :=
  match p.1 with
  | none => .undef
  | some t =>
    match t.wanted[t.i]? with
    | none => .thrown "basic_string::at"
    | some m =>
      if m ≠ c then .thrown "Invalid character found in exact match:"
      else .ok (some ⟨none, t.wanted, t.i + 1, t.strict, t.isMatch⟩, ⟨p.2.data ++ [c]⟩)

def IsStrict (p : Option (ReaderTaskExact (NullTask UInt8)) × ByteStringCollector) : Prop :=
  ∃ t, p.1 = some t ∧ t.strict = true

theorem folds_exactly : Folds IsStrict exactly where
  perform c p criteria hp := by
    obtain ⟨task, collector⟩ := p
    obtain ⟨⟨next, wanted, i, strict, isMatch⟩, rfl, hstrict⟩ := hp
    obtain rfl : strict = true := hstrict
    cases next with
    | some t => cases t
    | none =>
      simp only [performEl, StreamTask.perform, exactly]
      cases wanted[i]? with
      | none => rfl
      | some m =>
        by_cases hm : m = c <;> simp [hm, chainNext, performEl, Collector.accumulate]
  keeps last c p q hp h := by
    obtain ⟨t, ht, hstrict⟩ := hp
    simp only [exactly, ht] at h
    split at h
    · cases h
    · split at h
      · cases h
      · cases h
        exact ⟨_, rfl, hstrict⟩

/-- As long as the elements are those wanted, they are collected; nothing else comes through. -/
theorem feed_exactly (last : Bool) (as data wanted : List UInt8) (i : Nat) (isMatch : Bool)
    (q : Option (ReaderTaskExact (NullTask UInt8)) × ByteStringCollector) :
    feed (exactly last) as (some ⟨none, wanted, i, true, isMatch⟩, ⟨data⟩) = .ok q ↔
      as <+: wanted.drop i ∧
        q = (some ⟨none, wanted, i + as.length, true, isMatch⟩, ⟨data ++ as⟩) := by
  induction as generalizing data i with
  | nil => simp [eq_comm]
  | cons a as ih =>
    simp only [feed_cons, exactly]
    cases hget : wanted[i]? with
    | none =>
      have hle := List.getElem?_eq_none_iff.mp hget
      simp [List.drop_eq_nil_of_le hle]
    | some m =>
      obtain ⟨hlt, hm⟩ := List.getElem?_eq_some_iff.mp hget
      rw [List.drop_eq_getElem_cons hlt, hm, List.cons_prefix_cons]
      by_cases hma : m = a
      · subst hma
        simp [ih, Nat.add_assoc, Nat.add_comm 1]
      · have ham : ¬ a = m := fun h => hma h.symm
        simp [hma, ham]

/-- Handed over with the last one marked, the elements are all that is wanted. -/
theorem feed_exactly_all {as wanted : List UInt8} {u : UInt8} (data : List UInt8) (isMatch : Bool)
    (hlen : (as ++ [u]).length = wanted.length)
    (q : Option (ReaderTaskExact (NullTask UInt8)) × ByteStringCollector) :
    (feed (exactly false) as (some ⟨none, wanted, 0, true, isMatch⟩, ⟨data⟩)).bind
        (exactly true u) = .ok q ↔
      as ++ [u] = wanted ∧
        q = (some ⟨none, wanted, wanted.length, true, isMatch⟩, ⟨data ++ wanted⟩) := by
  have happ : (feed (exactly false) as
        (some ⟨none, wanted, 0, true, isMatch⟩, ⟨data⟩)).bind (exactly true u) =
      feed (exactly true) (as ++ [u]) (some ⟨none, wanted, 0, true, isMatch⟩, ⟨data⟩) := by
    rw [feed_append]
    exact congrArg _ (funext fun q => (Outcome.bind_ok_right _).symm)
  rw [happ, feed_exactly, List.drop_zero, hlen, Nat.zero_add]
  constructor
  · rintro ⟨hpre, rfl⟩
    have heq := hpre.eq_of_length hlen
    exact ⟨heq, by rw [heq]⟩
  · rintro ⟨heq, rfl⟩
    exact ⟨heq ▸ List.prefix_rfl, by rw [heq]⟩

theorem readString_exact (m : UInt8) (wanted l : List UInt8) (r : List UInt8 × List UInt8) :
    readString (m :: wanted).length (some (ReaderTaskExact.mk' (m :: wanted) true)) l = .ok r ↔
      l = m :: wanted ++ r.2 ∧ r.1 = m :: wanted := by
  have hread := folds_exactly.streamCollect_num ([] : List UInt8) wanted.length
    (some (ReaderTaskExact.mk' (m :: wanted) true)) (⟨[]⟩ : ByteStringCollector) l ⟨_, rfl, rfl⟩
  simp only [readString, Prog.bind_apply, List.length_cons, hread]
  cases hdrop : l.drop wanted.length with
  | nil =>
    have hlen := List.drop_eq_nil_iff.mp hdrop
    constructor
    · intro h
      obtain ⟨p, hp, -⟩ := Outcome.bind_eq_ok.mp h
      obtain ⟨q, -, hq⟩ := Outcome.bind_eq_ok.mp hp
      cases hq
    · rintro ⟨rfl, -⟩
      simp only [List.length_append, List.length_cons] at hlen
      omega
  | cons u rest =>
    have hsplit : l = l.take wanted.length ++ u :: rest := by
      rw [← hdrop, List.take_append_drop]
    have hlen : (l.take wanted.length ++ [u]).length = (m :: wanted).length := by
      have hne : l.drop wanted.length ≠ [] := by simp [hdrop]
      have := mt List.drop_eq_nil_iff.mpr hne
      simp only [List.length_append, List.length_take, List.length_cons, List.length_nil]
      omega
    generalize l.take wanted.length = as at hsplit hlen
    have hall := feed_exactly_all [] true hlen
    have hfinish : ∀ q : Option (ReaderTaskExact (NullTask UInt8)) × ByteStringCollector,
        (finish (q, rest)).bind (fun p => .ok (p.1.1, p.2)) = .ok (q.2.data, rest) := by
      rintro ⟨task, collector⟩
      cases task <;> rfl
    constructor
    · intro h
      obtain ⟨p, hp, hr⟩ := Outcome.bind_eq_ok.mp h
      obtain ⟨q, hq, hp⟩ := Outcome.bind_eq_ok.mp hp
      obtain ⟨q', hq', hp⟩ := Outcome.bind_eq_ok.mp hp
      obtain ⟨has, rfl⟩ := (hall q').mp (Outcome.bind_eq_ok.mpr ⟨q, hq, hq'⟩)
      cases hp
      cases hr
      exact ⟨by rw [hsplit, ← has, List.append_assoc]; rfl, rfl⟩
    · rintro ⟨hl, hr⟩
      have happ : (as ++ [u]) ++ rest = m :: wanted ++ r.2 := by
        rw [← hl, hsplit, List.append_assoc]
        rfl
      obtain ⟨has, hrest⟩ := List.append_inj happ hlen
      obtain ⟨q, hq, hq'⟩ := Outcome.bind_eq_ok.mp ((hall _).mpr ⟨has, rfl⟩)
      have hp0 : (Option.map StreamTask.init (some (ReaderTaskExact.mk' (m :: wanted) true)),
          Collector.init (⟨[]⟩ : ByteStringCollector)) =
          (some ⟨none, m :: wanted, 0, true, true⟩, ⟨[]⟩) := rfl
      rw [hp0, hq]
      simp only [Outcome.bind_ok, hq']
      refine (hfinish _).trans ?_
      obtain ⟨s, l'⟩ := r
      obtain rfl : s = m :: wanted := hr
      obtain rfl : rest = l' := hrest
      rfl

/-! Digits up to the first byte that is none. -/

/-- What the collectors of numbers make of a run of digits. -/
def gather [Collector κ UInt8 ρ] : List UInt8 → κ → Outcome κ :=
  feed fun c k => Collector.accumulate k c

section
variable [Collector κ UInt8 ρ] {ds rest l l' : List UInt8} {c el : UInt8} {n j : Nat} {k k' : κ}

theorem nextState_digit (st : LoopCriteriaState) (c : UInt8)
    (hj : j + 1 ≤ arbitrarySpatialUntilLimit) :
    LoopCriteriaI.nextState
        (⟨st, j, ByteIsCharClassCriteria.digitClass⟩ : ByteIsCharClassCriteria) c =
      .ok (if isDigit c then .good else .notGood,
        ⟨if isDigit c then .good else .notGood, j + 1, ByteIsCharClassCriteria.digitClass⟩) := by
  simp [LoopCriteriaI.nextState, ByteIsCharClassCriteria.nextState, Nat.not_lt.mpr hj,
    ByteIsCharClassCriteria.untilMatchNext, ByteIsCharClassCriteria.digitClass]

theorem collectLoop_digits (hds : ∀ d ∈ ds, isDigit d = true) (hc : isDigit c = false)
    (st : LoopCriteriaState) (hn : ds.length + 1 ≤ n)
    (hj : j + ds.length + 1 ≤ arbitrarySpatialUntilLimit)
    (hel : (ds ++ c :: rest).head? = some el) (k : κ) :
    collectLoop n el (⟨st, j, ByteIsCharClassCriteria.digitClass⟩ : ByteIsCharClassCriteria)
        (none : Option (NullTask UInt8)) k (ds ++ c :: rest) =
      (gather ds k).bind fun k' => .ok ((none, k'), c :: rest) := by
  induction ds generalizing n j el k st with
  | nil =>
    obtain ⟨n, rfl⟩ : ∃ m, n = m + 1 := ⟨n - 1, by simp only [List.length_nil] at hn; omega⟩
    obtain rfl : c = el := by simpa using hel
    have hnext := nextState_digit st c (j := j) (by simpa using hj)
    simp only [hc] at hnext
    exact collectLoop_notGood (p := (none, k)) hnext
  | cons d ds ih =>
    obtain ⟨n, rfl⟩ : ∃ m, n = m + 1 := ⟨n - 1, by simp only [List.length_cons] at hn; omega⟩
    obtain rfl : d = el := by simpa using hel
    obtain ⟨hd, hds⟩ := List.forall_mem_cons.mp hds
    simp only [List.length_cons] at hj hn
    have hnext := nextState_digit st d (j := j) (by omega)
    simp only [hd, if_true] at hnext
    obtain ⟨b, t, hb⟩ : ∃ b t, ds ++ c :: rest = b :: t := List.exists_cons_of_ne_nil (by simp)
    rw [List.cons_append, folds_collected.collectLoop_succ (p := (none, k)) trivial hnext rfl]
    simp only [collected, gather, feed_cons, Outcome.bind_assoc, Outcome.bind_ok]
    refine congrArg _ (funext fun k₁ => ?_)
    have hrec := ih hds (n := n) (j := j + 1) .good (by omega) (by omega)
      (by rw [hb]; rfl) k₁
    rw [hb] at hrec ⊢
    exact hrec

theorem collectLoop_digits_inv {st : LoopCriteriaState} {task : Option (NullTask UInt8)}
    (hel : l.head? = some el)
    (h : collectLoop n el
      (⟨st, j, ByteIsCharClassCriteria.digitClass⟩ : ByteIsCharClassCriteria)
      (none : Option (NullTask UInt8)) k l = .ok ((task, k'), l')) :
    ∃ ds c rest, l = ds ++ c :: rest ∧ l' = c :: rest ∧ (∀ d ∈ ds, isDigit d = true) ∧
      isDigit c = false ∧ gather ds k = .ok k' := by
  induction n generalizing j el l k st with
  | zero => cases h
  | succ n ih =>
    obtain ⟨l, rfl⟩ : ∃ t, l = el :: t := by
      cases l with
      | nil => cases hel
      | cons a t =>
        obtain rfl : a = el := by simpa using hel
        exact ⟨t, rfl⟩
    by_cases hj : j + 1 ≤ arbitrarySpatialUntilLimit
    · have hnext := nextState_digit st el hj
      cases hd : isDigit el with
      | false =>
        simp only [hd] at hnext
        rw [collectLoop_notGood (p := ((none : Option (NullTask UInt8)), k)) hnext] at h
        cases h
        exact ⟨[], el, l, rfl, rfl, by simp, hd, rfl⟩
      | true =>
        simp only [hd, if_true] at hnext
        rw [folds_collected.collectLoop_succ (p := ((none : Option (NullTask UInt8)), k))
          trivial hnext rfl] at h
        obtain ⟨⟨task₁, k₁⟩, hq, h⟩ := Outcome.bind_eq_ok.mp h
        obtain ⟨k₂, hacc, hk⟩ := Outcome.bind_eq_ok.mp hq
        cases hk
        cases l with
        | nil => cases h
        | cons b l =>
          obtain ⟨ds, c, rest, hl, hl', hds, hc, hg⟩ := ih rfl h
          refine ⟨el :: ds, c, rest, by rw [hl]; rfl, hl', ?_, hc, ?_⟩
          · exact List.forall_mem_cons.mpr ⟨hd, hds⟩
          · have hfirst : Collector.accumulate k el = .ok k₁ := hacc
            simp only [gather, feed_cons, hfirst, Outcome.bind_ok]
            exact hg
    · simp [collectLoop, LoopCriteriaI.nextState, ByteIsCharClassCriteria.nextState,
        Nat.lt_of_not_le hj] at h

/-- A read of digits takes a run of them, which the collector agrees to, and stops at a byte that
is none. -/
theorem streamCollect_digits (k : κ) (r : ρ) (task : Option (NullTask UInt8)) :
    streamCollect (ByteIsCharClassCriteria.mk' ByteIsCharClassCriteria.digitClass)
        (none : Option (NullTask UInt8)) k l = .ok ((r, task), l') →
      ∃ ds c rest k', l = ds ++ c :: rest ∧ l' = c :: rest ∧ (∀ d ∈ ds, isDigit d = true) ∧
        isDigit c = false ∧ gather ds (Collector.init k) = .ok k' ∧
        r = Collector.collect k' := by
  intro h
  cases l with
  | nil => simp [streamCollect] at h
  | cons a l =>
    rw [streamCollect_cons] at h
    obtain ⟨⟨⟨task₁, k₁⟩, l₁⟩, hloop, hfin⟩ := Outcome.bind_eq_ok.mp h
    obtain ⟨ds, c, rest, hl, hl', hds, hc, hg⟩ := collectLoop_digits_inv rfl hloop
    cases task₁ with
    | some t => cases t
    | none =>
      cases hfin
      exact ⟨ds, c, rest, k₁, hl, hl', hds, hc, hg, rfl⟩

theorem streamCollect_digits_ok (hds : ∀ d ∈ ds, isDigit d = true) (hc : isDigit c = false)
    (hlen : ds.length ≤ numberMaxDigits) (k : κ)
    (hg : gather ds (Collector.init k) = .ok k') :
    streamCollect (ByteIsCharClassCriteria.mk' ByteIsCharClassCriteria.digitClass)
        (none : Option (NullTask UInt8)) k (ds ++ c :: rest) =
      .ok ((Collector.collect k', none), c :: rest) := by
  obtain ⟨b, t, hb⟩ : ∃ b t, ds ++ c :: rest = b :: t := List.exists_cons_of_ne_nil (by simp)
  have hlen' : ds.length + 1 ≤ arbitrarySpatialUntilLimit := by
    simp only [numberMaxDigits, arbitrarySpatialUntilLimit] at hlen ⊢
    omega
  have hloop := collectLoop_digits (n := arbitrarySpatialUntilLimit + 1) (j := 0)
    hds hc .good (by omega) (by omega) (by rw [hb]; rfl) (Collector.init k)
  rw [hg, hb] at hloop
  rw [hb, streamCollect_cons]
  exact (congrArg (·.bind finish) hloop).trans rfl

end

/-- The value of a run of digits. -/
def digitsValue (ds : List UInt8) (v : Nat) : Nat :=
  ds.foldl (fun v c => v * 10 + (c.toNat - 0x30)) v

theorem digit_bounds {c : UInt8} (hc : isDigit c = true) : 0x30 ≤ c.toNat ∧ c.toNat ≤ 0x39 := by
  simpa [isDigit, UInt8.le_iff_toNat_le] using hc

theorem gather_natural {ds : List UInt8} (hds : ∀ d ∈ ds, isDigit d = true) {n v : Nat}
    (hn : n ≤ numberMaxDigits) (hv : v < 10 ^ n) (k : NaturalCollector) :
    gather ds (⟨n, v⟩ : NaturalCollector) = .ok k ↔
      n + ds.length ≤ numberMaxDigits ∧ k = ⟨n + ds.length, digitsValue ds v⟩ := by
  induction ds generalizing n v with
  | nil => simp [gather, digitsValue, hn, eq_comm]
  | cons d ds ih =>
    obtain ⟨hd, hds⟩ := List.forall_mem_cons.mp hds
    obtain ⟨hlo, hhi⟩ := digit_bounds hd
    simp only [gather, feed_cons, Collector.accumulate, List.length_cons]
    by_cases hlim : n + 1 > numberMaxDigits
    · simp only [hlim, if_true, Outcome.bind_thrown]
      constructor
      · intro h
        cases h
      · rintro ⟨hle, -⟩
        omega
    · have hpow : 10 ^ (n + 1) ≤ 10 ^ 10 :=
        Nat.pow_le_pow_right (by decide) (by simp only [numberMaxDigits] at hlim; omega)
      have hstep : v * 10 + (d.toNat - 0x30) < 10 ^ (n + 1) := by
        rw [Nat.pow_succ]
        omega
      have hmod : (v * 10 + (2 ^ 64 + d.toNat - 0x30)) % 2 ^ 64 = v * 10 + (d.toNat - 0x30) := by
        omega
      have hrec := ih hds (n := n + 1) (by omega) hstep
      simp only [hlim, if_false, Outcome.bind_ok, hmod]
      rw [show n + (ds.length + 1) = n + 1 + ds.length by omega]
      exact hrec

theorem feed_collected [Collector κ UInt8 ρ] (last : Bool) (bs : List UInt8) (k : κ) :
    feed (collected last) bs ((none, k) : Option (NullTask UInt8) × κ) =
      (gather bs k).bind fun k' => .ok (none, k') := by
  induction bs generalizing k with
  | nil => rfl
  | cons b bs ih => simp only [feed_cons, collected, gather, Outcome.bind_assoc, Outcome.bind_ok, ih]

theorem feed_collected_natural {ds : List UInt8} (hds : ∀ d ∈ ds, isDigit d = true)
    (hlen : ds.length ≤ numberMaxDigits) (last : Bool) :
    feed (collected last) ds ((none, ⟨0, 0⟩) : Option (NullTask UInt8) × NaturalCollector) =
      .ok (none, ⟨ds.length, digitsValue ds 0⟩) := by
  have hg := (gather_natural hds (n := 0) (v := 0) (Nat.zero_le _) (by decide) _).mpr
    ⟨by rwa [Nat.zero_add], rfl⟩
  rw [feed_collected, hg, Nat.zero_add]
  rfl

theorem readNaturalUntil_ok {ds untilEls rest : List UInt8} {u : UInt8} {consume : Bool}
    (hds : ∀ d ∈ ds, isDigit d = true) (hlen : ds.length ≤ numberMaxDigits)
    (hu : u ∈ untilEls) (huntil : ∀ v ∈ untilEls, isDigit v = false) :
    readNaturalUntil untilEls consume (ds ++ u :: rest) =
      .ok ((digitsValue ds 0, ds.length), if consume then rest else u :: rest) := by
  have hpre : ∀ d ∈ ds, d ∉ untilEls := by
    intro d hd hmem
    exact absurd (hds d hd) (by simp [huntil d hmem])
  have hlimit : seen false ds rest ≤ arbitrarySpatialUntilLimit := by
    simp only [seen, numberMaxDigits, arbitrarySpatialUntilLimit] at hlen ⊢
    simp
    omega
  have hread := folds_collected.streamCollect_until hpre hu hlimit
    (none : Option (NullTask UInt8)) (⟨0, 0⟩ : NaturalCollector) trivial
  simp only [Option.map_none, Collector.init, readEnd, feed_collected_natural hds hlen] at hread
  cases consume <;>
    simp [readNaturalUntil, hread, finish, flushTask, Collector.collect]

theorem readNaturalN_ok {ds : List UInt8} (rest : List UInt8)
    (hds : ∀ d ∈ ds, isDigit d = true) (hne : ds ≠ []) (hlen : ds.length ≤ numberMaxDigits) :
    readNaturalN ds.length (ds ++ rest) = .ok ((digitsValue ds 0, ds.length), rest) := by
  obtain ⟨as, a, rfl⟩ := List.eq_nil_or_concat' ds |>.resolve_left hne
  simp only [List.length_append, List.length_singleton] at hlen ⊢
  have hread := folds_collected.streamCollect_num ([] : List UInt8) as.length
    (none : Option (NullTask UInt8)) (⟨0, 0⟩ : NaturalCollector) (as ++ [a] ++ rest) trivial
  have hall := feed_collected_natural hds (by simpa using hlen) true
  have hdigits : ∀ d ∈ as, isDigit d = true := fun d hd => hds d (by simp [hd])
  have has := feed_collected_natural hdigits (by omega) false
  have hlast : collected true a ((none, ⟨as.length, digitsValue as 0⟩) :
      Option (NullTask UInt8) × NaturalCollector) =
        .ok (none, ⟨as.length + 1, digitsValue (as ++ [a]) 0⟩) := by
    have has' := feed_collected_natural hdigits (by omega) true
    rw [feed_append, has', Outcome.bind_ok, feed_cons] at hall
    simp only [List.length_append, List.length_singleton] at hall
    exact (Outcome.bind_ok_right _).symm.trans hall
  have hlimit : ¬ as.length + 1 > arbitraryLimitBecauseDumb := by
    simp only [numberMaxDigits, arbitraryLimitBecauseDumb] at hlen ⊢
    omega
  rw [readNaturalN, if_neg hlimit, if_neg (Nat.succ_ne_zero _)]
  simp only [Prog.bind_apply, hread, Option.map_none, Collector.init]
  simp [has, hlast, finish, flushTask, Collector.collect]

theorem readStringUntil_ok {pre untilEls rest : List UInt8} {u : UInt8}
    (hpre : ∀ a ∈ pre, a ∉ untilEls) (hu : u ∈ untilEls)
    (hlimit : pre.length + 2 ≤ arbitrarySpatialUntilLimit) :
    readStringUntil untilEls (none : Option (NullTask UInt8)) true (pre ++ u :: rest) =
      .ok (pre ++ [u], rest) := by
  have hread := folds_collected.streamCollect_until hpre hu ((seen_le true pre rest).trans hlimit)
    (none : Option (NullTask UInt8)) (⟨[]⟩ : ByteStringCollector) trivial
  simp [readStringUntil, hread, Collector.init, readEnd, feed_collected_bytes, collected,
    Collector.accumulate, finish, flushTask, Collector.collect]

section
variable [DoubleArith D]

/-- A digit behind the point. -/
def decimalStep (k : DecimalCollector D) (c : UInt8) : DecimalCollector D :=
  ⟨DoubleArith.mul k.decimalDivisor (DoubleArith.ofNat 10), k.digitCount + 1,
    DoubleArith.add k.value
      (DoubleArith.div (DoubleArith.ofInt ((c.toNat : Int) - 0x30)) k.decimalDivisor)⟩

@[simp] theorem foldl_decimalStep_digitCount (ds : List UInt8) (k : DecimalCollector D) :
    (ds.foldl decimalStep k).digitCount = k.digitCount + ds.length := by
  induction ds generalizing k with
  | nil => rfl
  | cons d ds ih =>
    simp only [List.foldl_cons, ih, decimalStep, List.length_cons]
    omega

theorem gather_decimal (ds : List UInt8) (k k' : DecimalCollector D)
    (hn : k.digitCount ≤ numberMaxDigits) :
    gather ds k = .ok k' ↔
      k.digitCount + ds.length ≤ numberMaxDigits ∧ k' = ds.foldl decimalStep k := by
  induction ds generalizing k with
  | nil => simp [gather, hn, eq_comm]
  | cons d ds ih =>
    simp only [gather, feed_cons, Collector.accumulate, List.length_cons, List.foldl_cons]
    by_cases hlim : k.digitCount + 1 > numberMaxDigits
    · simp only [hlim, if_true, Outcome.bind_thrown]
      constructor
      · intro h
        cases h
      · rintro ⟨hle, -⟩
        omega
    · have hrec := ih (decimalStep k d) (by simp only [decimalStep]; omega)
      simp only [hlim, if_false, Outcome.bind_ok]
      rw [show k.digitCount + (ds.length + 1) = (decimalStep k d).digitCount + ds.length by
        simp only [decimalStep]; omega]
      exact hrec

end

/-- A number as `readDecimal` takes it. -/
structure NumberText where
  natural : List UInt8
  decimal : Option (List UInt8)

namespace NumberText

def text (t : NumberText) : List UInt8 :=
  match t.decimal with
  | none => t.natural
  | some ds => t.natural ++ Byte.dot :: ds

def decimalDigits (t : NumberText) : Nat :=
  match t.decimal with
  | none => 0
  | some ds => ds.length

def value [DoubleArith D] (t : NumberText) : D :=
  match t.decimal with
  | none => DoubleArith.ofNat (digitsValue t.natural 0)
  | some ds => DoubleArith.add (DoubleArith.ofNat (digitsValue t.natural 0))
      (ds.foldl decimalStep ⟨DoubleArith.ofNat 10, 0, DoubleArith.ofNat 0⟩).value

structure Valid (t : NumberText) : Prop where
  natural : ∀ d ∈ t.natural, isDigit d = true
  naturalLength : t.natural.length ≤ numberMaxDigits
  decimal : ∀ ds, t.decimal = some ds →
    (∀ d ∈ ds, isDigit d = true) ∧ ds.length ≤ numberMaxDigits

end NumberText

theorem readNatural_iff {l l' : List UInt8} {r : Nat × Nat} :
    readNatural l = .ok (r, l') ↔
      ∃ ds c rest, l = ds ++ c :: rest ∧ l' = c :: rest ∧ (∀ d ∈ ds, isDigit d = true) ∧
        isDigit c = false ∧ ds.length ≤ numberMaxDigits ∧
        r = (digitsValue ds 0, ds.length) := by
  constructor
  · intro h
    obtain ⟨⟨⟨r', task⟩, l₁⟩, hs, hp⟩ := Outcome.bind_eq_ok.mp h
    obtain ⟨ds, c, rest, k, hl, hl', hds, hc, hg, hr⟩ := streamCollect_digits _ _ _ hs
    obtain ⟨hlen, rfl⟩ := (gather_natural hds (Nat.zero_le _) (by decide) k).mp hg
    cases hp
    rw [Nat.zero_add] at hlen
    exact ⟨ds, c, rest, hl, hl', hds, hc, hlen, by rw [hr]; simp [Collector.collect]⟩
  · rintro ⟨ds, c, rest, rfl, rfl, hds, hc, hlen, rfl⟩
    have hg := (gather_natural hds (n := 0) (v := 0) (Nat.zero_le _) (by decide) _).mpr
      ⟨by rwa [Nat.zero_add], rfl⟩
    simp [readNatural, streamCollect_digits_ok (k := (⟨0, 0⟩ : NaturalCollector)) hds hc hlen
      hg, Collector.collect]

theorem readDecimal_iff [DoubleArith D] {l l' : List UInt8} {r : D × Nat × Nat} :
    readDecimal l = .ok (r, l') ↔
      ∃ (t : NumberText) (c : UInt8) (rest : List UInt8), l = t.text ++ c :: rest ∧
        l' = c :: rest ∧ t.Valid ∧ isDigit c = false ∧ (t.decimal = none → c ≠ Byte.dot) ∧
        r = (t.value, t.natural.length, t.decimalDigits) := by
  constructor
  · intro h
    obtain ⟨⟨natural, l₁⟩, hnat, h⟩ := Outcome.bind_eq_ok.mp h
    obtain ⟨ds, c, rest, rfl, rfl, hds, hc, hlen, rfl⟩ := readNatural_iff.mp hnat
    simp only [Prog.bind_apply, peek_list_cons, Outcome.bind_ok] at h
    by_cases hdot : c = Byte.dot
    · subst hdot
      simp only [ne_eq, not_true, if_false, Prog.bind_apply, get_list_cons, Outcome.bind_ok] at h
      obtain ⟨⟨⟨r', task⟩, l₂⟩, hs, hp⟩ := Outcome.bind_eq_ok.mp h
      obtain ⟨ds', c', rest', k, rfl, rfl, hds', hc', hg, rfl⟩ := streamCollect_digits _ _ _ hs
      obtain ⟨hlen', rfl⟩ := (gather_decimal ds' _ k (Nat.zero_le _)).mp hg
      cases hp
      refine ⟨⟨ds, some ds'⟩, c', rest', by simp [NumberText.text], rfl, ⟨hds, hlen, ?_⟩, hc',
        by simp, ?_⟩
      · rintro ds₁ ⟨⟩
        exact ⟨hds', by simpa [Collector.init] using hlen'⟩
      · simp [NumberText.value, NumberText.decimalDigits, Collector.collect, Collector.init]
    · simp only [ne_eq, hdot, not_false_iff, if_true] at h
      cases h
      exact ⟨⟨ds, none⟩, c, rest, rfl, rfl, ⟨hds, hlen, by simp⟩, hc, fun _ => hdot, rfl⟩
  · rintro ⟨⟨ds, decimal⟩, c, rest, rfl, rfl, hv, hc, hdot, rfl⟩
    cases decimal with
    | none =>
      have hnat := readNatural_iff.mpr ⟨ds, c, rest, rfl, rfl, hv.natural, hc,
        hv.naturalLength, rfl⟩
      simp [readDecimal, NumberText.text, hnat, hdot rfl, NumberText.value,
        NumberText.decimalDigits]
    | some ds' =>
      obtain ⟨hds', hlen'⟩ := hv.decimal ds' rfl
      have hnat := readNatural_iff.mpr ⟨ds, Byte.dot, ds' ++ c :: rest, rfl, rfl, hv.natural,
        by decide, hv.naturalLength, rfl⟩
      have hg := (gather_decimal (D := D) ds' ⟨DoubleArith.ofNat 10, 0, DoubleArith.ofNat 0⟩ _
        (Nat.zero_le _)).mpr ⟨by simpa using hlen', rfl⟩
      have hs : streamCollect _ _ _ (ds' ++ c :: rest) = _ :=
        streamCollect_digits_ok hds' hc hlen'
          (⟨DoubleArith.ofNat 10, 0, DoubleArith.ofNat 0⟩ : DecimalCollector D) hg
      simp [readDecimal, NumberText.text, hnat, NumberText.value, NumberText.decimalDigits, hs,
        Collector.collect]

end WylesLibs.Stream
