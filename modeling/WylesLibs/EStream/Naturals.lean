import WylesLibs.EStream.Bail
import WylesLibs.EStream.ByteReads
import WylesLibs.Library.Delimited

/-! The three ways to read a natural number: up to the first byte that is no digit, up to one of
some bytes, and a number of bytes. Only the first looks at what it takes. -/
namespace WylesLibs.Stream
open Library
variable {α γ κ ρ θ : Type}

/-! A stream next to the list of what is left of it. -/

section
variable [LoopCriteriaI γ α] [Collector κ α ρ] [StreamTask θ α]
  [SettledCriteria γ] [SettledCollector κ] [SettledTask θ]

theorem FileTail.settles_streamCollect (criteria : γ) (task : Option θ) (k : κ) :
    (streamCollect criteria task k : Prog (FileTail α) _).Settles := by
  intro s
  obtain ⟨l⟩ := s
  cases l with
  | nil => simp [streamCollect]
  | cons a l =>
    simp only [streamCollect, Prog.bind_apply, FileTail.peek_cons, Outcome.bind_ok, Prog.lift_apply]
    apply Outcome.Settled.bind
    · apply FileTail.settled_collectLoop (List.cons_ne_nil a l)
      exact Stream.settled_collectLoop (Nat.lt_succ_self _)
    · intro p _
      apply Outcome.Settled.bind
      · exact .bind (settled_flushTask _ _) fun _ _ => Outcome.settled_ok _
      · exact fun _ _ => Outcome.settled_ok _

/-- A stream reads what is read off its contents, unless the read takes all that a file has; where
the one throws, so does the other. -/
theorem Contains.streamCollect_cases (criteria : γ) (task : Option θ) (k : κ) {s : EStream α}
    {l : List α} (h : Contains s l) :
    (∃ r l' s', streamCollect criteria task k l = .ok (r, l') ∧ (l' ≠ [] ∨ Holds s l) ∧
      streamCollect criteria task k s = .ok (r, s') ∧ Contains s' l') ∨
    (∃ w, streamCollect criteria task k s = .thrown w) ∧
      ∀ r l', streamCollect criteria task k l = .ok (r, l') → l' = [] ∧ ¬ Holds s l := by
  by_cases hmem : Holds s l
  · have hrel := holds_sim.streamCollect criteria task k s l hmem
    have hsettled := settles_streamCollect criteria task k l
    cases hlist : streamCollect criteria task k l with
    | ok r =>
      rw [hlist] at hrel
      obtain ⟨s', hs', h'⟩ := hrel.of_ok
      exact Or.inl ⟨r.1, r.2, s', rfl, Or.inr hmem, hs', Or.inl h'⟩
    | thrown w =>
      rw [hlist] at hrel
      exact Or.inr ⟨⟨w, hrel.of_thrown⟩, by simp⟩
    | undef => exact absurd hlist hsettled.1
    | timeout => exact absurd hlist hsettled.2
  · have hfile := h.resolve_left hmem
    have hrel := EStream.file_sim.streamCollect criteria task k s ⟨l⟩ hfile
    have hsettled := FileTail.settles_streamCollect criteria task k ⟨l⟩
    cases htail : streamCollect criteria task k (⟨l⟩ : FileTail α) with
    | ok r =>
      obtain ⟨r, ⟨l'⟩⟩ := r
      rw [htail] at hrel
      obtain ⟨s', hs', h'⟩ := hrel.of_ok
      obtain ⟨hlist, hne⟩ := FileTail.streamCollect_iff.mp htail
      exact Or.inl ⟨r, l', s', hlist, Or.inl hne, hs', Or.inr h'⟩
    | thrown w =>
      rw [htail] at hrel
      refine Or.inr ⟨⟨w, hrel.of_thrown⟩, fun r l' hlist => ⟨?_, hmem⟩⟩
      by_contra hne
      rw [FileTail.streamCollect_iff.mpr ⟨hlist, hne⟩] at htail
      cases htail
    | undef => exact absurd htail hsettled.1
    | timeout => exact absurd htail hsettled.2

end

/-! What the collector makes of any bytes. -/

def wrappedValue (bs : List UInt8) (v : Nat) : Nat :=
  bs.foldl (fun v c => (v * 10 + (2 ^ 64 + c.toNat - 0x30)) % 2 ^ 64) v

theorem gather_natural_eq (bs : List UInt8) {n v : Nat} (hn : n ≤ numberMaxDigits) :
    gather bs (⟨n, v⟩ : NaturalCollector) =
      if n + bs.length ≤ numberMaxDigits then .ok ⟨n + bs.length, wrappedValue bs v⟩
      else .thrown "parseNatural: Exceeded natural digit limit." := by
  induction bs generalizing n v with
  | nil => simp [gather, wrappedValue, hn]
  | cons b bs ih =>
    simp only [gather, feed_cons, Collector.accumulate, List.length_cons]
    by_cases hlim : n + 1 > numberMaxDigits
    · rw [if_pos hlim, Outcome.bind_thrown, if_neg (by omega)]
    · have hrec := @ih (n + 1) ((v * 10 + (2 ^ 64 + b.toNat - 0x30)) % 2 ^ 64) (by omega)
      rw [if_neg hlim, Outcome.bind_ok, show n + (bs.length + 1) = n + 1 + bs.length by omega]
      exact hrec

theorem wrappedValue_digits {ds : List UInt8} (hds : ∀ d ∈ ds, isDigit d = true)
    (hlen : ds.length ≤ numberMaxDigits) : wrappedValue ds 0 = digitsValue ds 0 := by
  have hg := gather_natural_eq ds (n := 0) (v := 0) (Nat.zero_le _)
  rw [if_pos (by omega)] at hg
  have hk := (gather_natural hds (Nat.zero_le _) (by decide) _).mp hg
  exact congrArg NaturalCollector.value hk.2

/-- Taking in the byte, the collector wraps neither in its difference nor in its value. -/
def NaturalCollector.Fits (k : NaturalCollector) (c : UInt8) : Prop :=
  0x30 ≤ c.toNat ∧ k.value * 10 + (c.toNat - 0x30) < 2 ^ 64

theorem digitsValue_lt {ds : List UInt8} (hds : ∀ d ∈ ds, isDigit d = true) (v : Nat) :
    digitsValue ds v < (v + 1) * 10 ^ ds.length := by
  induction ds generalizing v with
  | nil => simp [digitsValue]
  | cons d ds ih =>
    obtain ⟨hd, hds⟩ := List.forall_mem_cons.mp hds
    obtain ⟨hlo, hhi⟩ := digit_bounds hd
    have hrest := ih hds (v * 10 + (d.toNat - 0x30))
    have hstep : v * 10 + (d.toNat - 0x30) + 1 ≤ (v + 1) * 10 := by omega
    calc digitsValue (d :: ds) v = digitsValue ds (v * 10 + (d.toNat - 0x30)) := rfl
      _ < (v * 10 + (d.toNat - 0x30) + 1) * 10 ^ ds.length := hrest
      _ ≤ (v + 1) * 10 * 10 ^ ds.length := Nat.mul_le_mul_right _ hstep
      _ = (v + 1) * 10 ^ (d :: ds).length := by rw [List.length_cons, Nat.pow_succ]; ring

/-- Up to the digit that is one too many, and with this one too, nothing wraps. -/
theorem gather_fits {p : List UInt8} {d : UInt8} (hp : ∀ b ∈ p, isDigit b = true)
    (hd : isDigit d = true) {k : NaturalCollector}
    (hk : gather p (⟨0, 0⟩ : NaturalCollector) = .ok k) : k.Fits d := by
  obtain ⟨hlen, rfl⟩ := (gather_natural hp (Nat.zero_le _) (by decide) k).mp hk
  obtain ⟨hlo, hhi⟩ := digit_bounds hd
  have hvalue := digitsValue_lt hp 0
  have hpow : 10 ^ p.length ≤ 10 ^ 10 :=
    Nat.pow_le_pow_right (by decide) (by simpa [numberMaxDigits] using hlen)
  refine ⟨hlo, ?_⟩
  simp only [Nat.zero_add, Nat.one_mul] at hvalue ⊢
  omega

/-! The three reads. -/

/-- The number is read, and what is left is a byte that is none of its digits, or nothing comes of
the read. -/
theorem readNatural_cases {s : EStream UInt8} {l : List UInt8} (h : Contains s l) :
    (∃ ds c rest s', l = ds ++ c :: rest ∧ (∀ d ∈ ds, isDigit d = true) ∧ isDigit c = false ∧
      ds.length ≤ numberMaxDigits ∧ readNatural s = .ok ((digitsValue ds 0, ds.length), s') ∧
      Contains s' (c :: rest)) ∨
    (∃ w, readNatural s = .thrown w) ∧
      ∀ ds c rest, l = ds ++ c :: rest → (∀ d ∈ ds, isDigit d = true) → isDigit c = false →
        numberMaxDigits < ds.length := by
  obtain ⟨r, l', s', hlist, -, hs, h'⟩ | ⟨⟨w, hs⟩, hnone⟩ := Contains.streamCollect_cases
    (ByteIsCharClassCriteria.mk' ByteIsCharClassCriteria.digitClass)
    (none : Option (NullTask UInt8)) (⟨0, 0⟩ : NaturalCollector) h
  · obtain ⟨r, task⟩ := r
    have hread : readNatural l = .ok (r, l') := by simp [readNatural, hlist]
    obtain ⟨ds, c, rest, hl, rfl, hds, hc, hlen, rfl⟩ := readNatural_iff.mp hread
    exact Or.inl ⟨ds, c, rest, s', hl, hds, hc, hlen, by simp [readNatural, hs], h'⟩
  · refine Or.inr ⟨⟨w, by simp [readNatural, hs]⟩, ?_⟩
    intro ds c rest hl hds hc
    by_contra hle
    have hg := gather_natural_eq ds (n := 0) (v := 0) (Nat.zero_le _)
    rw [if_pos (by omega)] at hg
    have hlist := @streamCollect_digits_ok _ _ _ ds rest c _ hds hc (by omega)
      (⟨0, 0⟩ : NaturalCollector) hg
    rw [← hl] at hlist
    exact absurd (hnone _ _ hlist).1 (List.cons_ne_nil c rest)

/-- `readNatural` takes all the digits there are, or throws because there are too many; up to then
its accumulator does not wrap. -/
theorem readNatural_takes {s : EStream UInt8} {ds rest : List UInt8} {c : UInt8}
    (h : Contains s (ds ++ c :: rest)) (hds : ∀ d ∈ ds, isDigit d = true)
    (hc : isDigit c = false) :
    ((∃ w, readNatural s = .thrown w) ↔ 10 < ds.length) ∧
    (ds.length ≤ 10 → ∃ s', readNatural s = .ok ((digitsValue ds 0, ds.length), s') ∧
      Contains s' (c :: rest)) ∧
    ∀ p d, p ++ [d] <+: ds → ∀ k : NaturalCollector,
      gather p (Collector.init (⟨0, 0⟩ : NaturalCollector)) = .ok k → k.Fits d := by
  have hfits : ∀ p d, p ++ [d] <+: ds → ∀ k : NaturalCollector,
      gather p (Collector.init (⟨0, 0⟩ : NaturalCollector)) = .ok k → k.Fits d := by
    intro p d hpre k hk
    have hall : ∀ b ∈ p ++ [d], isDigit b = true := fun b hb => hds b (hpre.subset hb)
    exact gather_fits (fun b hb => hall b (List.mem_append_left _ hb)) (hall d (by simp)) hk
  obtain ⟨ds', c', rest', s', hl, hds', hc', hlen, hs, h'⟩ | ⟨hthrown, htoo⟩ := readNatural_cases h
  · obtain ⟨rfl, -⟩ := delimited_inj hds hds' (by simp [hc]) (by simp [hc']) hl
    cases List.append_cancel_left hl
    refine ⟨?_, fun _ => ⟨s', hs, h'⟩, hfits⟩
    simp only [numberMaxDigits] at hlen
    simp [hs, hlen]
  · have hmany := htoo ds c rest rfl hds hc
    simp only [numberMaxDigits] at hmany
    exact ⟨⟨fun _ => hmany, fun _ => hthrown⟩, fun hle => absurd hle (by omega), hfits⟩

theorem readNatural_takes_12 :
    ∃ s', readNatural (EStream.ofBuffer [0x31, 0x32, 0x20]) = .ok ((12, 2), s') ∧
      Contains s' [0x20] := by
  have h : Contains (EStream.ofBuffer [0x31, 0x32, 0x20]) ([0x31, 0x32] ++ (0x20 : UInt8) :: []) :=
    Or.inl (holds_ofBuffer _)
  exact (readNatural_takes h (by simp [isDigit]) (by decide)).2.1 (by decide)

/-- Up to one of some bytes, the bytes before it are taken whatever they are. -/
theorem streamCollect_natural_until_iff {untilEls l l' : List UInt8} {r : Nat × Nat}
    {task : Option (NullTask UInt8)} :
    streamCollect (LoopCriteria.mk' .untilMatch false 0 untilEls) (none : Option (NullTask UInt8))
        (⟨0, 0⟩ : NaturalCollector) l = .ok ((r, task), l') ↔
      ∃ pre u rest, l = pre ++ u :: rest ∧ (∀ a ∈ pre, a ∉ untilEls) ∧ u ∈ untilEls ∧
        pre.length ≤ numberMaxDigits ∧ r = (wrappedValue pre 0, pre.length) ∧ task = none ∧
        l' = u :: rest := by
  have hend : ∀ pre u rest, (readEnd (collected (κ := NaturalCollector)) false pre u rest
        ((none, ⟨0, 0⟩) : Option (NullTask UInt8) × NaturalCollector)).bind finish =
      if pre.length ≤ numberMaxDigits then
        .ok (((wrappedValue pre 0, pre.length), none), u :: rest)
      else .thrown "parseNatural: Exceeded natural digit limit." := by
    intro pre u rest
    rw [readEnd, feed_collected, gather_natural_eq pre (Nat.zero_le _), Nat.zero_add]
    split
    · simp [finish, flushTask, Collector.collect]
    · rfl
  constructor
  · intro h
    obtain ⟨pre, u, rest, hl, hpre, hu, -, hread⟩ :=
      @Folds.streamCollect_until_inv _ _ _ _ _ _ _ _ _ _ _ folds_collected
        (none : Option (NullTask UInt8)) _ (⟨0, 0⟩ : NaturalCollector) _ _ _ trivial h
    refine ⟨pre, u, rest, hl, hpre, hu, ?_⟩
    have heq := (hend pre u rest).symm.trans hread
    split at heq
    · rename_i hlen
      cases heq
      exact ⟨hlen, rfl, rfl, rfl⟩
    · cases heq
  · rintro ⟨pre, u, rest, rfl, hpre, hu, hlen, rfl, rfl, rfl⟩
    have hlimit : seen false pre rest ≤ arbitrarySpatialUntilLimit := by
      simp only [seen, numberMaxDigits, arbitrarySpatialUntilLimit] at hlen ⊢
      simp
      omega
    have hread := folds_collected.streamCollect_until hpre hu hlimit
      (none : Option (NullTask UInt8)) (⟨0, 0⟩ : NaturalCollector) trivial
    exact hread.trans ((hend pre u rest).trans (if_pos hlen))

/-- So are the bytes of a given number. -/
theorem streamCollect_natural_num_iff {n : Nat} {l l' : List UInt8} {r : Nat × Nat}
    {task : Option (NullTask UInt8)} (hn : n ≠ 0) :
    streamCollect (LoopCriteria.mk' .untilNumElements true n ([] : List UInt8))
        (none : Option (NullTask UInt8)) (⟨0, 0⟩ : NaturalCollector) l = .ok ((r, task), l') ↔
      n ≤ numberMaxDigits ∧ n ≤ l.length ∧ r = (wrappedValue (l.take n) 0, n) ∧ task = none ∧
        l' = l.drop n := by
  obtain ⟨n, rfl⟩ := Nat.exists_eq_succ_of_ne_zero hn
  have hread := folds_collected.streamCollect_num ([] : List UInt8) n
    (none : Option (NullTask UInt8)) (⟨0, 0⟩ : NaturalCollector) l trivial
  rw [Nat.succ_eq_add_one, hread]
  obtain hlt | hge := Nat.lt_or_ge n l.length
  · have hdrop := List.drop_eq_getElem_cons hlt
    have htake := List.take_succ_eq_append_getElem hlt
    have happ : ((feed (collected false) (l.take n)
          ((none, ⟨0, 0⟩) : Option (NullTask UInt8) × NaturalCollector)).bind
            fun q => (collected true l[n] q).bind fun q => finish (q, l.drop (n + 1))) =
        (gather (l.take (n + 1)) (⟨0, 0⟩ : NaturalCollector)).bind fun k =>
          .ok (((k.value, k.digitCount), none), l.drop (n + 1)) := by
      rw [htake, gather, feed_append, feed_collected, Outcome.bind_assoc, Outcome.bind_assoc]
      refine congrArg _ (funext fun k => ?_)
      simp only [Outcome.bind_ok, collected, feed_cons, Outcome.bind_assoc]
      rfl
    have hlen : (l.take (n + 1)).length = n + 1 := by
      rw [List.length_take]
      omega
    rw [hdrop]
    simp only [Option.map_none, Collector.init]
    rw [happ, gather_natural_eq _ (Nat.zero_le _), hlen, Nat.zero_add]
    split
    · rename_i hle
      simp only [Outcome.bind_ok, Outcome.ok.injEq, Prod.mk.injEq]
      constructor
      · rintro ⟨⟨rfl, rfl⟩, rfl⟩
        exact ⟨hle, hlt, rfl, rfl, rfl⟩
      · rintro ⟨-, -, rfl, rfl, rfl⟩
        exact ⟨⟨rfl, rfl⟩, rfl⟩
    · rename_i hle
      simp [hle]
  · rw [List.drop_eq_nil_of_le hge]
    constructor
    · intro h
      obtain ⟨q, -, hq⟩ := Outcome.bind_eq_ok.mp h
      cases hq
    · rintro ⟨-, hle, -⟩
      omega

/-- The read throws, or it takes nothing but digits and returns their value and how many there are. -/
def RejectsOthers (taken : List UInt8) (out : Outcome ((Nat × Nat) × EStream UInt8)) : Prop :=
  (∃ w, out = .thrown w) ∨
    (∀ b ∈ taken, isDigit b = true) ∧ ∃ s', out = .ok ((digitsValue taken 0, taken.length), s')

theorem RejectsOthers.digits {taken : List UInt8} {out : Outcome ((Nat × Nat) × EStream UInt8)}
    {r : (Nat × Nat) × EStream UInt8} (h : RejectsOthers taken out) (hout : out = .ok r) :
    ∀ b ∈ taken, isDigit b = true := by
  obtain ⟨w, hw⟩ | ⟨hdigits, -⟩ := h
  · rw [hout] at hw
    cases hw
  · exact hdigits

theorem takeWhile_append_cons {p : α → Bool} {as rest : List α} {c : α} (has : ∀ a ∈ as, p a = true)
    (hc : p c = false) : (as ++ c :: rest).takeWhile p = as := by
  rw [List.takeWhile_append_of_pos has, List.takeWhile_cons_of_neg (by simp [hc]), List.append_nil]

theorem exists_takeWhile {p : α → Bool} {l : List α} (h : ∃ u ∈ l, p u = false) :
    ∃ u rest, l = l.takeWhile p ++ u :: rest ∧ p u = false := by
  induction l with
  | nil => simp at h
  | cons a l ih =>
    cases ha : p a with
    | false => exact ⟨a, l, by simp [ha], ha⟩
    | true =>
      obtain ⟨u, hu, hpu⟩ := h
      obtain rfl | hu := List.mem_cons.mp hu
      · rw [ha] at hpu
        cases hpu
      · obtain ⟨v, rest, hl, hv⟩ := ih ⟨u, hu, hpu⟩
        refine ⟨v, rest, ?_, hv⟩
        rw [List.takeWhile_cons_of_pos ha, List.cons_append, ← hl]

theorem readNatural_rejects {s : EStream UInt8} {l : List UInt8} (h : Contains s l) :
    RejectsOthers (l.takeWhile isDigit) (readNatural s) := by
  obtain ⟨ds, c, rest, s', rfl, hds, hc, -, hs, -⟩ | ⟨hthrown, -⟩ := readNatural_cases h
  · rw [takeWhile_append_cons hds hc]
    exact Or.inr ⟨hds, s', hs⟩
  · exact Or.inl hthrown

theorem readNaturalUntil_rejects_iff {s : EStream UInt8} {l : List UInt8} (h : Contains s l)
    (untilEls : List UInt8) (consume : Bool) :
    RejectsOthers (l.takeWhile (· ∉ untilEls)) (readNaturalUntil untilEls consume s) ↔
      ((∃ u ∈ l, u ∈ untilEls) → (l.takeWhile (· ∉ untilEls)).length ≤ 10 →
        ∀ b ∈ l.takeWhile (· ∉ untilEls), isDigit b = true) := by
  obtain ⟨r, l', s', hlist, -, hs, h'⟩ | ⟨⟨w, hs⟩, hnone⟩ := Contains.streamCollect_cases
    (LoopCriteria.mk' .untilMatch false 0 untilEls)
    (none : Option (NullTask UInt8)) (⟨0, 0⟩ : NaturalCollector) h
  · obtain ⟨r, task⟩ := r
    obtain ⟨pre, u, rest, rfl, hpre, hu, hlen, rfl, rfl, rfl⟩ :=
      streamCollect_natural_until_iff.mp hlist
    have htaken : (pre ++ u :: rest).takeWhile (fun a => decide (a ∉ untilEls)) = pre :=
      takeWhile_append_cons (by simpa using hpre) (by simpa using hu)
    have hout : ∃ s'', readNaturalUntil untilEls consume s =
        .ok ((wrappedValue pre 0, pre.length), s'') := by
      obtain ⟨s'', hget, -⟩ := h'.get
      cases consume with
      | false => exact ⟨s', by simp [readNaturalUntil, hs]⟩
      | true => exact ⟨s'', by simp [readNaturalUntil, hs, hget]⟩
    obtain ⟨s'', hout⟩ := hout
    rw [htaken]
    constructor
    · intro hrejects _ _
      exact hrejects.digits hout
    · intro hdigits
      have hall := hdigits ⟨u, by simp, hu⟩ (by simpa [numberMaxDigits] using hlen)
      rw [hout, wrappedValue_digits hall hlen]
      exact Or.inr ⟨hall, s'', rfl⟩
  · have hthrown : readNaturalUntil untilEls consume s = .thrown w := by
      simp [readNaturalUntil, hs]
    refine ⟨fun _ hends hlen => ?_, fun _ => Or.inl ⟨w, hthrown⟩⟩
    obtain ⟨u, hul, hu⟩ := hends
    -- within the limit and with something to stop at, the read does not throw
    exfalso
    obtain ⟨v, rest, hsplit, hv⟩ := exists_takeWhile (p := fun a => decide (a ∉ untilEls))
      ⟨u, hul, by simpa using hu⟩
    have hread := streamCollect_natural_until_iff.mpr ⟨_, v, rest, hsplit, ?_, by simpa using hv,
      by simpa [numberMaxDigits] using hlen, rfl, rfl, rfl⟩
    · exact absurd (hnone _ _ hread).1 (List.cons_ne_nil v rest)
    · intro a ha
      simpa using List.mem_takeWhile_imp ha

/-- The bytes that `readNatural(n)` takes. -/
def takenN (n : Nat) (l : List UInt8) : List UInt8 :=
  if n = 0 then l.takeWhile isDigit else l.take n

theorem readNaturalN_rejects_iff {s : EStream UInt8} {l : List UInt8} (h : Contains s l) (n : Nat) :
    RejectsOthers (takenN n l) (readNaturalN n s) ↔
      (n ≤ 10 → n < l.length ∨ n = l.length ∧ Holds s l → ∀ b ∈ takenN n l, isDigit b = true) := by
  by_cases hn : n = 0
  · subst hn
    have hrejects := readNatural_rejects h
    have hread : readNaturalN 0 s = readNatural s := by
      simp [readNaturalN, arbitraryLimitBecauseDumb]
    rw [hread, takenN, if_pos rfl]
    refine ⟨fun _ _ _ b hb => List.mem_takeWhile_imp hb, fun _ => hrejects⟩
  by_cases hlimit : n > arbitraryLimitBecauseDumb
  · have hten : ¬ n ≤ 10 := by
      simp only [arbitraryLimitBecauseDumb] at hlimit
      omega
    have hthrown : ∃ w, readNaturalN n s = .thrown w := ⟨_, by rw [readNaturalN, if_pos hlimit]; rfl⟩
    exact ⟨fun _ hle => absurd hle hten, fun _ => Or.inl hthrown⟩
  have htaken : takenN n l = l.take n := if_neg hn
  have hread : readNaturalN n s = (streamCollect
      (LoopCriteria.mk' .untilNumElements true n [] : LoopCriteria UInt8)
      (none : Option (NullTask UInt8)) (⟨0, 0⟩ : NaturalCollector) s).bind
        fun r => .ok (r.1.1, r.2) := by
    rw [readNaturalN, if_neg hlimit, if_neg hn]
    rfl
  rw [htaken, hread]
  obtain ⟨r, l', s', hlist, hleft, hs, h'⟩ | ⟨⟨w, hs⟩, hnone⟩ := Contains.streamCollect_cases
    (LoopCriteria.mk' .untilNumElements true n ([] : List UInt8))
    (none : Option (NullTask UInt8)) (⟨0, 0⟩ : NaturalCollector) h
  · obtain ⟨r, task⟩ := r
    obtain ⟨hten, hle, rfl, rfl, rfl⟩ := (streamCollect_natural_num_iff hn).mp hlist
    have hlen : (l.take n).length = n := by
      rw [List.length_take]
      omega
    rw [hs, Outcome.bind_ok]
    constructor
    · intro hrejects _ _
      exact hrejects.digits rfl
    · intro hdigits
      have henough : n < l.length ∨ n = l.length ∧ Holds s l := by
        obtain hne | hmem := hleft
        · rw [ne_eq, List.drop_eq_nil_iff] at hne
          exact Or.inl (by omega)
        · obtain hlt | heq := Nat.lt_or_eq_of_le hle
          · exact Or.inl hlt
          · exact Or.inr ⟨heq, hmem⟩
      have hall := hdigits (by simpa [numberMaxDigits] using hten) henough
      rw [wrappedValue_digits hall (by omega)]
      exact Or.inr ⟨hall, s', by rw [hlen]⟩
  · rw [hs, Outcome.bind_thrown]
    refine ⟨fun _ hten henough => ?_, fun _ => Or.inl ⟨w, rfl⟩⟩
    exfalso
    have hle : n ≤ l.length := by omega
    have hlist := (streamCollect_natural_num_iff hn).mpr
      ⟨hten, hle, rfl, rfl, rfl⟩
    obtain ⟨hnil, hmem⟩ := hnone _ _ hlist
    obtain hlt | ⟨-, hholds⟩ := henough
    · rw [List.drop_eq_nil_iff] at hnil
      omega
    · exact hmem hholds

/-- The delimited reads refuse other bytes than digits just where they would refuse any bytes. -/
theorem delimited_naturals_iff {s : EStream UInt8} {l : List UInt8} (h : Contains s l)
    (untilEls : List UInt8) (consume : Bool) (n : Nat) :
    (RejectsOthers (l.takeWhile (· ∉ untilEls)) (readNaturalUntil untilEls consume s) ↔
      ((∃ u ∈ l, u ∈ untilEls) → (l.takeWhile (· ∉ untilEls)).length ≤ 10 →
        ∀ b ∈ l.takeWhile (· ∉ untilEls), isDigit b = true)) ∧
    (RejectsOthers (takenN n l) (readNaturalN n s) ↔
      (n ≤ 10 → n < l.length ∨ n = l.length ∧ Holds s l → ∀ b ∈ takenN n l, isDigit b = true)) := by
  constructor
  · exact readNaturalUntil_rejects_iff h untilEls consume
  · exact readNaturalN_rejects_iff h n

theorem delimited_naturals_12 :
    RejectsOthers [0x31, 0x32]
      (readNaturalUntil [Byte.minus] true (EStream.ofBuffer [0x31, 0x32, Byte.minus])) := by
  have h : Contains (EStream.ofBuffer [0x31, 0x32, Byte.minus]) [0x31, 0x32, Byte.minus] :=
    Or.inl (holds_ofBuffer _)
  have htaken : [0x31, 0x32, Byte.minus].takeWhile (fun a => decide (a ∉ [Byte.minus])) =
      [0x31, 0x32] := by decide
  have hiff := (delimited_naturals_iff h [Byte.minus] true 2).1
  rw [htaken] at hiff
  exact hiff.mpr fun _ _ => by simp [isDigit]

/-- `"1a-"` up to the minus is fifty-nine. -/
theorem delimited_naturals_letter :
    ¬ ∀ (s : EStream UInt8) (l : List UInt8), Contains s l →
      (∀ (untilEls : List UInt8) (consume : Bool), untilEls ≠ [] →
        RejectsOthers (l.takeWhile (· ∉ untilEls)) (readNaturalUntil untilEls consume s)) ∧
      ∀ n, RejectsOthers (takenN n l) (readNaturalN n s) := by
  intro hevery
  have h : Contains (EStream.ofBuffer [0x31, 0x61, Byte.minus]) [0x31, 0x61, Byte.minus] :=
    Or.inl (holds_ofBuffer _)
  have htaken : [0x31, 0x61, Byte.minus].takeWhile (fun a => decide (a ∉ [Byte.minus])) =
      [0x31, 0x61] := by decide
  have hrejects := (hevery _ _ h).1 [Byte.minus] true (by simp)
  rw [readNaturalUntil_rejects_iff h, htaken] at hrejects
  have hletter := hrejects ⟨Byte.minus, by simp, by simp⟩ (by decide) 0x61 (by simp)
  exact absurd hletter (by decide)

end WylesLibs.Stream
