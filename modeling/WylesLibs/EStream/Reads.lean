import WylesLibs.EStream.Memory

/-! What the reads come to on a list: which elements they take, and what the collector and the
task make of them. -/
namespace WylesLibs.Stream
open Library
variable {α β κ ρ θ D : Type}

/-- Task and collector, as long as `P` holds of them, make `upd` of an element: they look at the
criteria only to see whether it is the last one, and leave it as it is. -/
structure Folds [Collector κ α ρ] [StreamTask θ α] (P : Option θ × κ → Prop)
    (upd : Bool → α → Option θ × κ → Outcome (Option θ × κ)) : Prop where
  perform : ∀ {γ : Type} [LoopCriteriaI γ α] (a : α) (p : Option θ × κ) (c : γ), P p →
    performEl p.1 a c p.2 =
      (upd (LoopCriteriaI.state c).isAtLast a p).bind fun q => .ok (q.1, c, q.2)
  keeps : ∀ (last : Bool) (a : α) (p q : Option θ × κ), P p → upd last a p = .ok q → P q

/-- What a collector alone makes of an element. -/
def collected [Collector κ α ρ] (_ : Bool) (a : α) (p : Option (NullTask α) × κ) :
    Outcome (Option (NullTask α) × κ) :=
  (Collector.accumulate p.2 a).bind fun k => .ok (none, k)

theorem folds_collected [Collector κ α ρ] :
    Folds (fun _ => True) (collected : Bool → α → Option (NullTask α) × κ → _) where
  perform a p c _ := by
    obtain ⟨task, collector⟩ := p
    cases task with
    | none =>
      simp only [performEl, collected]
      cases Collector.accumulate collector a <;> rfl
    | some t => cases t
  keeps _ _ _ _ _ _ := trivial

section
variable [Collector κ α ρ] [StreamTask θ α] {P : Option θ × κ → Prop}
variable {upd : Bool → α → Option θ × κ → Outcome (Option θ × κ)}

theorem Folds.collectLoop_succ {γ : Type} [LoopCriteriaI γ α] (hf : Folds P upd) {n : Nat}
    {a : α} {l : List α} {criteria criteria' : γ} {st : LoopCriteriaState} {p : Option θ × κ}
    (hp : P p) (hnext : LoopCriteriaI.nextState criteria a = .ok (st, criteria'))
    (hgood : st.isGood = true) :
    collectLoop (n + 1) a criteria p.1 p.2 (a :: l) =
      (upd (LoopCriteriaI.state criteria').isAtLast a p).bind fun q =>
        match l with
        | [] =>
          if (LoopCriteriaI.state criteria').isAtLast then .ok (q, []) else .thrown endOfData
        | b :: l' => collectLoop n b criteria' q.1 q.2 (b :: l') := by
  simp only [collectLoop, Prog.bind_apply, Prog.lift_apply, hnext, Outcome.bind_ok, hgood,
    if_true, get_list_cons, hf.perform a p criteria' hp]
  cases upd (LoopCriteriaI.state criteria').isAtLast a p with
  | thrown w => rfl
  | undef => rfl
  | timeout => rfl
  | ok q =>
    cases l with
    | nil => by_cases hlast : (LoopCriteriaI.state criteria').isAtLast = true <;> simp [hlast]
    | cons b l => simp

theorem collectLoop_notGood {γ : Type} [LoopCriteriaI γ α] {n : Nat} {a : α} {l : List α}
    {criteria criteria' : γ} {p : Option θ × κ}
    (hnext : LoopCriteriaI.nextState criteria a = .ok (.notGood, criteria')) :
    collectLoop (n + 1) a criteria p.1 p.2 l = .ok (p, l) := by
  simp [collectLoop, hnext, LoopCriteriaState.isGood]

/-! Reads until a match. -/

variable [DecidableEq α] {inclusive : Bool} {untilEls pre rest : List α} {u : α}

/-- How many elements `nextState` sees in a read: an inclusive one also looks behind its last
element, if there is anything. -/
def seen (inclusive : Bool) (pre rest : List α) : Nat :=
  pre.length + 1 + if inclusive = true ∧ rest ≠ [] then 1 else 0

omit [DecidableEq α] in
theorem seen_le (inclusive : Bool) (pre rest : List α) :
    seen inclusive pre rest ≤ pre.length + 2 := by
  unfold seen
  split <;> omega

/-- What a read until a match makes of the elements it takes. -/
def readEnd (upd : Bool → α → β → Outcome β) (inclusive : Bool) (pre : List α) (u : α)
    (rest : List α) (p : β) : Outcome (β × List α) :=
  (feed (upd false) pre p).bind fun q =>
    if inclusive then (upd true u q).bind fun q => .ok (q, rest) else .ok (q, u :: rest)

theorem Folds.collectLoop_until (hf : Folds P upd) (hpre : ∀ a ∈ pre, a ∉ untilEls)
    (hu : u ∈ untilEls) {n j : Nat} (hn : pre.length + 2 ≤ n)
    (hj : j + seen inclusive pre rest ≤ arbitrarySpatialUntilLimit)
    {el : α} (hel : (pre ++ u :: rest).head? = some el) {p : Option θ × κ} (hp : P p) :
    collectLoop n el (⟨.good, .untilMatch, inclusive, j, untilEls⟩ : LoopCriteria α) p.1 p.2
        (pre ++ u :: rest) = readEnd upd inclusive pre u rest p := by
  induction pre generalizing n j el p with
  | nil =>
    obtain ⟨n, rfl⟩ : ∃ m, n = m + 2 := ⟨n - 2, by simp only [List.length_nil] at hn; omega⟩
    obtain rfl : u = el := by simpa using hel
    have hj' : j + 1 ≤ arbitrarySpatialUntilLimit := by
      simp only [seen, List.length_nil] at hj
      omega
    have hmatch : LoopCriteria.nextState ⟨.good, .untilMatch, inclusive, j, untilEls⟩ u = _ :=
      LoopCriteria.nextState_match hu hj'
    cases inclusive with
    | false => exact collectLoop_notGood hmatch
    | true =>
      simp only [List.nil_append]
      rw [hf.collectLoop_succ hp hmatch rfl]
      simp only [readEnd, feed_nil, Outcome.bind_ok, if_true]
      refine congrArg _ (funext fun q => ?_)
      cases rest with
      | nil => rfl
      | cons b rest =>
        have hj₂ : j + 1 + 1 ≤ arbitrarySpatialUntilLimit := by
          simp only [seen, List.length_nil] at hj
          exact hj
        exact collectLoop_notGood (LoopCriteria.nextState_last hj₂)
  | cons a pre ih =>
    obtain ⟨n, rfl⟩ : ∃ m, n = m + 1 := ⟨n - 1, by simp only [List.length_cons] at hn; omega⟩
    obtain rfl : a = el := by simpa using hel
    obtain ⟨ha, hpre⟩ := List.forall_mem_cons.mp hpre
    have hj' : j + 1 + seen inclusive pre rest ≤ arbitrarySpatialUntilLimit := by
      simp only [seen, List.length_cons] at hj ⊢
      omega
    have hpass : LoopCriteria.nextState ⟨.good, .untilMatch, inclusive, j, untilEls⟩ a = _ :=
      LoopCriteria.nextState_pass ha (by simp only [seen] at hj'; omega)
    rw [List.cons_append, hf.collectLoop_succ hp hpass rfl]
    simp only [readEnd, feed_cons, Outcome.bind_assoc]
    cases hq : upd false a p with
    | thrown w => simp [LoopCriteriaI.state, LoopCriteriaState.isAtLast, hq]
    | undef => simp [LoopCriteriaI.state, LoopCriteriaState.isAtLast, hq]
    | timeout => simp [LoopCriteriaI.state, LoopCriteriaState.isAtLast, hq]
    | ok q =>
      obtain ⟨b, l, hb⟩ : ∃ b l, pre ++ u :: rest = b :: l :=
        List.exists_cons_of_ne_nil (by simp)
      have hrec := ih hpre (n := n) (j := j + 1)
        (by simp only [List.length_cons] at hn; omega) hj' (by rw [hb]; rfl)
        (hf.keeps _ _ _ _ hp hq)
      rw [hb] at hrec ⊢
      simp only [LoopCriteriaI.state, LoopCriteriaState.isAtLast, hq, Outcome.bind_ok]
      simpa only [readEnd] using hrec

/-- A read until a match that comes to an end has found one, within the limit. -/
theorem Folds.collectLoop_until_inv (hf : Folds P upd) {n j : Nat} {el : α} {l l' : List α}
    (hel : l.head? = some el) {p q : Option θ × κ} (hp : P p)
    (h : collectLoop n el (⟨.good, .untilMatch, inclusive, j, untilEls⟩ : LoopCriteria α)
      p.1 p.2 l = .ok (q, l')) :
    ∃ pre u rest, l = pre ++ u :: rest ∧ (∀ a ∈ pre, a ∉ untilEls) ∧ u ∈ untilEls ∧
      j + seen inclusive pre rest ≤ arbitrarySpatialUntilLimit ∧
      readEnd upd inclusive pre u rest p = .ok (q, l') := by
  induction n generalizing j el l p with
  | zero => cases h
  | succ n ih =>
    obtain ⟨l, rfl⟩ : ∃ t, l = el :: t := by
      cases l with
      | nil => cases hel
      | cons a t =>
        obtain rfl : a = el := by simpa using hel
        exact ⟨t, rfl⟩
    by_cases hj : j + 1 ≤ arbitrarySpatialUntilLimit
    · by_cases hmem : el ∈ untilEls
      · have hmatch : LoopCriteria.nextState ⟨.good, .untilMatch, inclusive, j, untilEls⟩ el = _ :=
          LoopCriteria.nextState_match hmem hj
        cases inclusive with
        | false =>
          rw [collectLoop_notGood hmatch] at h
          cases h
          exact ⟨[], el, l, rfl, by simp, hmem, by simpa [seen] using hj, rfl⟩
        | true =>
          rw [hf.collectLoop_succ hp hmatch rfl] at h
          obtain ⟨q₁, hq₁, h⟩ := Outcome.bind_eq_ok.mp h
          cases l with
          | nil =>
            cases h
            refine ⟨[], el, [], rfl, by simp, hmem, by simpa [seen] using hj, ?_⟩
            have hlast : upd true el p = .ok q := hq₁
            simp [readEnd, hlast]
          | cons b l =>
            cases n with
            | zero => cases h
            | succ n =>
              by_cases hj₂ : j + 1 + 1 ≤ arbitrarySpatialUntilLimit
              · simp only [if_true] at h
                rw [collectLoop_notGood (LoopCriteria.nextState_last hj₂)] at h
                cases h
                have hlim : j + seen true [] (b :: l) ≤ arbitrarySpatialUntilLimit := by
                  have hseen := seen_le true [] (b :: l)
                  simp only [List.length_nil] at hseen
                  omega
                refine ⟨[], el, b :: l, rfl, by simp, hmem, hlim, ?_⟩
                have hlast : upd true el p = .ok q := hq₁
                simp [readEnd, hlast]
              · simp [collectLoop, LoopCriteriaI.nextState, LoopCriteria.nextState,
                  Nat.lt_of_not_le hj₂] at h
      · have hpass : LoopCriteria.nextState ⟨.good, .untilMatch, inclusive, j, untilEls⟩ el = _ :=
          LoopCriteria.nextState_pass hmem hj
        rw [hf.collectLoop_succ hp hpass rfl] at h
        obtain ⟨q₁, hq₁, h⟩ := Outcome.bind_eq_ok.mp h
        cases l with
        | nil => cases h
        | cons b l =>
          obtain ⟨pre, u, rest, hl, hpre, hu, hlim, hend⟩ :=
            ih rfl (hf.keeps _ _ _ _ hp hq₁) h
          refine ⟨el :: pre, u, rest, by rw [hl]; rfl, ?_, hu, ?_, ?_⟩
          · exact List.forall_mem_cons.mpr ⟨hmem, hpre⟩
          · simp only [seen, List.length_cons] at hlim ⊢
            omega
          · have hfirst : upd false el p = .ok q₁ := hq₁
            simp only [readEnd, feed_cons, hfirst, Outcome.bind_ok]
            exact hend
    · simp [collectLoop, LoopCriteriaI.nextState, LoopCriteria.nextState,
        Nat.lt_of_not_le hj] at h

/-! Reads of a number of elements. -/

variable (untilEls) in
theorem Folds.collectLoop_num (hf : Folds P upd) {n steps : Nat} (hsteps : n + 2 ≤ steps)
    (a : α) (l : List α) {p : Option θ × κ} (hp : P p) :
    collectLoop steps a (⟨.good, .untilNumElements, true, n + 1, untilEls⟩ : LoopCriteria α)
        p.1 p.2 (a :: l) =
      (feed (upd false) ((a :: l).take n) p).bind fun q =>
        match (a :: l).drop n with
        | [] => .thrown endOfData
        | u :: rest => (upd true u q).bind fun q => .ok (q, rest) := by
  induction n generalizing steps a l p with
  | zero =>
    obtain ⟨steps, rfl⟩ : ∃ m, steps = m + 2 := ⟨steps - 2, by omega⟩
    have hnext : LoopCriteria.nextState ⟨.good, .untilNumElements, true, 1, untilEls⟩ a =
        .ok (.goodAtLast, ⟨.goodAtLast, .untilNumElements, true, 0, untilEls⟩) := by
      simp [LoopCriteria.nextState, LoopCriteria.untilSizeNext]
    rw [hf.collectLoop_succ hp hnext rfl]
    simp only [List.take_zero, feed_nil, Outcome.bind_ok, List.drop_zero]
    refine congrArg _ (funext fun q => ?_)
    cases l with
    | nil => rfl
    | cons b l =>
      have hlast : LoopCriteria.nextState ⟨.goodAtLast, .untilNumElements, true, 0, untilEls⟩ b =
          .ok (.notGood, ⟨.notGood, .untilNumElements, true, sizeMax, untilEls⟩) := by
        simp [LoopCriteria.nextState, LoopCriteria.untilSizeNext, LoopCriteriaState.isGood]
      exact collectLoop_notGood hlast
  | succ n ih =>
    obtain ⟨steps, rfl⟩ : ∃ m, steps = m + 1 := ⟨steps - 1, by omega⟩
    have hnext : LoopCriteria.nextState ⟨.good, .untilNumElements, true, n + 2, untilEls⟩ a =
        .ok (.good, ⟨.good, .untilNumElements, true, n + 1, untilEls⟩) := by
      simp [LoopCriteria.nextState, LoopCriteria.untilSizeNext, LoopCriteriaState.isGood]
    rw [hf.collectLoop_succ hp hnext rfl]
    simp only [List.take_succ_cons, feed_cons, Outcome.bind_assoc, List.drop_succ_cons]
    cases hq : upd false a p with
    | thrown w => simp [LoopCriteriaI.state, LoopCriteriaState.isAtLast, hq]
    | undef => simp [LoopCriteriaI.state, LoopCriteriaState.isAtLast, hq]
    | timeout => simp [LoopCriteriaI.state, LoopCriteriaState.isAtLast, hq]
    | ok q =>
      simp only [LoopCriteriaI.state, LoopCriteriaState.isAtLast, hq, Outcome.bind_ok]
      cases l with
      | nil => simp
      | cons b l => exact ih (by omega) b l (hf.keeps _ _ _ _ hp hq)

/-! The reads as a whole. -/

/-- What is left to do when the loop is through. -/
def finish (r : (Option θ × κ) × List α) : Outcome ((ρ × Option θ) × List α) :=
  (flushTask r.1.1 r.1.2).bind fun q => .ok ((Collector.collect q.2, q.1), r.2)

omit [DecidableEq α] in
theorem streamCollect_cons {γ : Type} [LoopCriteriaI γ α] (criteria : γ) (task : Option θ)
    (collector : κ) (a : α) (l : List α) :
    streamCollect criteria task collector (a :: l) =
      (collectLoop (LoopCriteriaI.steps criteria + 1) a criteria (task.map StreamTask.init)
        (Collector.init collector) (a :: l)).bind finish := by
  simp only [streamCollect, Prog.bind_apply, peek_list_cons, Outcome.bind_ok, Prog.lift_apply,
    Prog.pure_apply, Outcome.bind_assoc]
  rfl

theorem Folds.streamCollect_until (hf : Folds P upd) (hpre : ∀ a ∈ pre, a ∉ untilEls)
    (hu : u ∈ untilEls) (hlimit : seen inclusive pre rest ≤ arbitrarySpatialUntilLimit)
    (task : Option θ) (collector : κ)
    (hp : P (task.map StreamTask.init, Collector.init collector)) :
    streamCollect (LoopCriteria.mk' .untilMatch inclusive 0 untilEls) task collector
        (pre ++ u :: rest) =
      (readEnd upd inclusive pre u rest
        (task.map StreamTask.init, Collector.init collector)).bind finish := by
  obtain ⟨b, l, hb⟩ : ∃ b l, pre ++ u :: rest = b :: l := List.exists_cons_of_ne_nil (by simp)
  have hlen : pre.length + 1 ≤ arbitrarySpatialUntilLimit := by
    simp only [seen] at hlimit
    omega
  have hloop : collectLoop (arbitrarySpatialUntilLimit + 1) b
      (⟨.good, .untilMatch, inclusive, 0, untilEls⟩ : LoopCriteria α) (task.map StreamTask.init)
      (Collector.init collector) (pre ++ u :: rest) = _ :=
    hf.collectLoop_until hpre hu (by omega) (by omega) (by rw [hb]; rfl) hp
  rw [← hloop, hb]
  exact streamCollect_cons _ _ _ _ _

theorem Folds.streamCollect_until_inv (hf : Folds P upd) {task task' : Option θ}
    {collector : κ} {l l' : List α} {data : ρ}
    (hp : P (task.map StreamTask.init, Collector.init collector))
    (h : streamCollect (LoopCriteria.mk' .untilMatch inclusive 0 untilEls) task collector l =
      .ok ((data, task'), l')) :
    ∃ pre u rest, l = pre ++ u :: rest ∧ (∀ a ∈ pre, a ∉ untilEls) ∧ u ∈ untilEls ∧
      seen inclusive pre rest ≤ arbitrarySpatialUntilLimit ∧
      (readEnd upd inclusive pre u rest
        (task.map StreamTask.init, Collector.init collector)).bind finish =
          .ok ((data, task'), l') := by
  cases l with
  | nil => simp [streamCollect] at h
  | cons a l =>
    rw [streamCollect_cons] at h
    obtain ⟨⟨q, l₁⟩, hloop, hfin⟩ := Outcome.bind_eq_ok.mp h
    obtain ⟨pre, u, rest, hl, hpre, hu, hlim, hend⟩ := hf.collectLoop_until_inv rfl hp hloop
    exact ⟨pre, u, rest, hl, hpre, hu, by omega, by rw [hend]; exact hfin⟩

variable (untilEls) in
theorem Folds.streamCollect_num (hf : Folds P upd) (n : Nat) (task : Option θ) (collector : κ)
    (l : List α) (hp : P (task.map StreamTask.init, Collector.init collector)) :
    streamCollect (LoopCriteria.mk' .untilNumElements true (n + 1) untilEls) task collector l =
      (feed (upd false) (l.take n) (task.map StreamTask.init, Collector.init collector)).bind
        fun q => match l.drop n with
          | [] => .thrown endOfData
          | u :: rest => (upd true u q).bind fun q => finish (q, rest) := by
  cases l with
  | nil => simp [streamCollect]
  | cons a l =>
    have hloop := hf.collectLoop_num untilEls (Nat.le_refl (n + 2)) a l hp
    rw [streamCollect_cons]
    simp only [LoopCriteria.mk', LoopCriteriaI.steps, LoopCriteria.steps, hloop,
      Outcome.bind_assoc]
    refine congrArg _ (funext fun q => ?_)
    cases (a :: l).drop n with
    | nil => rfl
    | cons u rest => simp [Outcome.bind_assoc]

end

section
variable [DecidableEq α] {inclusive : Bool} {untilEls pre rest : List α} {u : α}

omit [DecidableEq α] in
theorem feed_collected_array (last : Bool) (as data : List α) :
    feed (collected last) as ((none, ⟨data⟩) : Option (NullTask α) × ArrayCollector α) =
      .ok (none, ⟨data ++ as⟩) := by
  induction as generalizing data with
  | nil => simp
  | cons a as ih => simp [feed_cons, collected, Collector.accumulate, ih]

/-- A read without a task returns what stands before the match, and the match too if it is an
inclusive one. -/
theorem read_list (hpre : ∀ a ∈ pre, a ∉ untilEls) (hu : u ∈ untilEls)
    (hlimit : seen inclusive pre rest ≤ arbitrarySpatialUntilLimit) :
    read untilEls (none : Option (NullTask α)) inclusive (pre ++ u :: rest) =
      .ok (pre ++ if inclusive then [u] else [], if inclusive then rest else u :: rest) := by
  have hread := folds_collected.streamCollect_until hpre hu hlimit
    (none : Option (NullTask α)) (⟨[]⟩ : ArrayCollector α) trivial
  cases inclusive <;>
    simp [read, hread, readEnd, finish, Collector.init, feed_collected_array, collected,
      Collector.accumulate, Collector.collect, flushTask]

end
end WylesLibs.Stream
