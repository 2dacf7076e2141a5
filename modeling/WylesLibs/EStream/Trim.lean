import WylesLibs.EStream.Bail
import WylesLibs.EStream.ByteStream

/-! `ReaderTaskTrim`: what it has held back for one gap it gives out again with every later one. -/
namespace WylesLibs.Stream
open Library
variable {α κ ρ θ : Type}

/-- Where a task does not ask whether an element is the last one, a read that ends has given it the
elements it took, whatever the criteria. -/
theorem Folds.collectLoop_taken {γ : Type} [LoopCriteriaI γ α] [Collector κ α ρ] [StreamTask θ α]
    {P : Option θ × κ → Prop} {upd : Bool → α → Option θ × κ → Outcome (Option θ × κ)}
    (hf : Folds P upd) (hlast : ∀ last, upd last = upd false) {n : Nat} {el : α} {criteria : γ}
    {p q : Option θ × κ} {l l' : List α} (hel : l.head? = some el) (hp : P p)
    (h : collectLoop n el criteria p.1 p.2 l = .ok (q, l')) :
    ∃ taken, l = taken ++ l' ∧ feed (upd false) taken p = .ok q := by
  induction n generalizing el criteria p l with
  | zero => simp [collectLoop] at h
  | succ n ih =>
    cases l with
    | nil => simp at hel
    | cons a l =>
      obtain rfl : a = el := by simpa using hel
      obtain ⟨⟨st, c'⟩, t, hlift, -⟩ := Prog.bind_ok_iff.mp h
      obtain ⟨r, hnext, hr⟩ := Outcome.bind_eq_ok.mp hlift
      cases hr
      cases hg : st.isGood with
      | false =>
        have hend : collectLoop (n + 1) a criteria p.1 p.2 (a :: l) = .ok (p, a :: l) := by
          simp [collectLoop, hnext, hg]
        obtain ⟨rfl, rfl⟩ := Prod.mk.inj (Outcome.ok.inj (hend.symm.trans h))
        exact ⟨[], rfl, rfl⟩
      | true =>
        rw [hf.collectLoop_succ hp hnext hg, hlast] at h
        obtain ⟨p', hp', h⟩ := Outcome.bind_eq_ok.mp h
        cases l with
        | nil =>
          simp only at h
          split at h
          · cases h
            exact ⟨[a], rfl, by simp [feed_cons, hp']⟩
          · cases h
        | cons b l =>
          obtain ⟨taken, hl, hfeed⟩ := ih rfl (hf.keeps _ _ _ _ hp hp') h
          refine ⟨a :: taken, by rw [hl]; rfl, ?_⟩
          rw [feed_cons, hp']
          exact hfeed

/-- What a stream reads is what is read off its contents. -/
theorem Contains.streamCollect [DecidableEq α] [Collector κ α ρ] [StreamTask θ α]
    [SettledCollector κ] [SettledTask θ] {c : LoopCriteria α} {task : Option θ} {k : κ}
    {s s' : EStream α} {l l' : List α} {r : ρ × Option θ} (h : Contains s l) (h' : Contains s' l')
    (hread : streamCollect c task k s = .ok (r, s')) :
    Stream.streamCollect c task k l = .ok (r, l') := by
  obtain h | h := h
  · have hrel := holds_sim.streamCollect c task k s l h
    rw [hread] at hrel
    obtain ⟨m, hm, hs'⟩ := hrel.to_ok
    obtain rfl : m = l' := hs'.2.symm.trans h'.remaining
    exact hm
  · have hrel := EStream.file_sim.streamCollect c task k s ⟨l⟩ h
    rw [hread] at hrel
    obtain ⟨⟨m⟩, hm, hs'⟩ := hrel.to_ok
    obtain rfl : m = l' := hs'.remaining.symm.trans h'.remaining
    exact (FileTail.streamCollect_iff.mp hm).1

/-- A collector that puts the bytes it is given one behind the other. -/
class Concatenates (κ : Type) [Collector κ UInt8 (List UInt8)] : Prop where
  init : ∀ k : κ, Collector.collect (Collector.init k) = []
  accumulate : ∀ (k : κ) (c : UInt8),
    ∃ k', Collector.accumulate k c = .ok k' ∧ Collector.collect k' = Collector.collect k ++ [c]
  accumulateEls : ∀ (k : κ) (cs : List UInt8),
    ∃ k', Collector.accumulateEls k cs = .ok k' ∧ Collector.collect k' = Collector.collect k ++ cs

instance : Concatenates (ArrayCollector UInt8) where
  init _ := rfl
  accumulate _ _ := ⟨_, rfl, rfl⟩
  accumulateEls _ _ := ⟨_, rfl, rfl⟩

instance : Concatenates ByteStringCollector where
  init _ := rfl
  accumulate _ _ := ⟨_, rfl, rfl⟩
  accumulateEls _ _ := ⟨_, rfl, rfl⟩

/-! What is to come out, and what does. -/

def trimmed (bs : List UInt8) : List UInt8 :=
  (bs.dropWhile isWhitespace).rdropWhile isWhitespace

def words (bs : List UInt8) : List (List UInt8) :=
  (bs.splitOnP isWhitespace).filter fun w => !w.isEmpty

/-- How many words begin, where `gap` says whether there is none at hand. -/
def starts : Bool → List UInt8 → Nat
  | _, [] => 0
  | gap, c :: l =>
    if isWhitespace c then starts true l
    else (if gap then 1 else 0) + starts false l

/-- What the task gives out behind the first byte of the first word: `held` is its `r_trim`. -/
def given : List UInt8 → Bool → List UInt8 → List UInt8
  | _, _, [] => []
  | held, gap, c :: l =>
    if isWhitespace c then given (held ++ [c]) true l
    else if gap then held ++ c :: given held false l
    else c :: given held false l

/-- The same with a gap forgotten once it is given out. -/
def kept : List UInt8 → List UInt8 → List UInt8
  | _, [] => []
  | pending, c :: l =>
    if isWhitespace c then kept (pending ++ [c]) l
    else pending ++ c :: kept [] l

variable {held old pending l : List UInt8} {gap : Bool} {c : UInt8}

theorem rdropWhile_append_cons (hc : isWhitespace c = false) (pending l : List UInt8) :
    (pending ++ c :: l).rdropWhile isWhitespace = pending ++ c :: l.rdropWhile isWhitespace := by
  induction l using List.reverseRecOn with
  | nil => rw [List.rdropWhile_concat_neg _ _ _ (by simp [hc])]; simp
  | append_singleton l a ih =>
    have hassoc : pending ++ c :: (l ++ [a]) = (pending ++ c :: l) ++ [a] := by simp
    rw [hassoc, List.rdropWhile_concat, List.rdropWhile_concat]
    split
    · exact ih
    · simp

theorem kept_eq (hp : ∀ b ∈ pending, isWhitespace b = true) :
    kept pending l = (pending ++ l).rdropWhile isWhitespace := by
  induction l generalizing pending with
  | nil =>
    rw [List.append_nil]
    exact (List.rdropWhile_eq_nil_iff.mpr hp).symm
  | cons c l ih =>
    unfold kept
    split
    · next hc =>
      have hp' : ∀ b ∈ pending ++ [c], isWhitespace b = true := by
        simp only [List.mem_append, List.mem_singleton]
        rintro b (hb | rfl)
        · exact hp b hb
        · exact hc
      rw [ih hp', List.append_assoc, List.singleton_append]
    · next hc =>
      rw [rdropWhile_append_cons (by simpa using hc), ih (by simp), List.nil_append]

/-- As long as no more than one gap is followed by a word, the two are the same. -/
theorem given_eq_kept (hgap : gap = !pending.isEmpty)
    (h : starts gap l = 0 ∨ old = [] ∧ starts gap l ≤ 1) :
    given (old ++ pending) gap l = kept pending l := by
  induction l generalizing old pending gap with
  | nil => rfl
  | cons c l ih =>
    unfold starts at h
    unfold given kept
    cases hc : isWhitespace c with
    | true =>
      simp only [hc, if_true, List.append_assoc] at h ⊢
      exact ih (by simp) h
    | false =>
      simp only [hc, Bool.false_eq_true, if_false] at h ⊢
      cases gap with
      | true =>
        simp only [if_true] at h ⊢
        obtain ⟨rfl, hle⟩ := h.resolve_left (by omega)
        have hrest : given (pending ++ []) false l = kept [] l := ih rfl (Or.inl (by omega))
        rw [List.append_nil] at hrest
        rw [List.nil_append, hrest]
      | false =>
        obtain rfl : pending = [] := by simpa using hgap.symm
        simp only [Bool.false_eq_true, if_false, zero_add] at h ⊢
        have hrest : given (old ++ []) false l = kept [] l := ih rfl h
        rw [hrest, List.nil_append]

/-- Every gap but the first brings something out twice. -/
theorem kept_length_add_le (hgap : gap = !pending.isEmpty) :
    (kept pending l).length + (if old = [] then starts gap l - 1 else starts gap l) ≤
      (given (old ++ pending) gap l).length := by
  induction l generalizing old pending gap with
  | nil => simp [starts, kept]
  | cons c l ih =>
    unfold starts given kept
    cases hc : isWhitespace c with
    | true =>
      simp only [if_true, List.append_assoc]
      exact ih (by simp)
    | false =>
      simp only [Bool.false_eq_true, if_false]
      cases gap with
      | true =>
        have hne : pending ≠ [] := by simpa using hgap
        have hrest : (kept [] l).length +
            (if old ++ pending = [] then starts false l - 1 else starts false l) ≤
              (given (old ++ pending ++ []) false l).length := ih rfl
        simp only [List.append_nil, List.append_eq_nil_iff, hne, and_false, if_false] at hrest
        simp only [if_true, List.length_append, List.length_cons]
        split
        · omega
        · next hold =>
          have := List.length_pos_iff.mpr hold
          omega
      | false =>
        obtain rfl : pending = [] := by simpa using hgap.symm
        have hrest : (kept [] l).length +
            (if old = [] then starts false l - 1 else starts false l) ≤
              (given (old ++ []) false l).length := ih rfl
        simp only [Bool.false_eq_true, if_false, zero_add, List.nil_append, List.length_cons]
        omega

theorem given_eq_iff : given [] false l = l.rdropWhile isWhitespace ↔ starts false l ≤ 1 := by
  have hkept : kept [] l = l.rdropWhile isWhitespace := kept_eq (by simp)
  rw [← hkept]
  constructor
  · intro h
    have hlen : (kept [] l).length + (if [] = ([] : List UInt8) then starts false l - 1
        else starts false l) ≤ (given ([] ++ []) false l).length := kept_length_add_le rfl
    simp only [List.append_nil, if_true, h] at hlen
    omega
  · intro h
    have heq : given ([] ++ []) false l = kept [] l := given_eq_kept rfl (Or.inr ⟨rfl, h⟩)
    exact heq

theorem words_length (l : List UInt8) :
    (words l).length = starts true l ∧
      ((l.splitOnP isWhitespace).tail.filter fun w => !w.isEmpty).length = starts false l := by
  induction l with
  | nil => simp [words, starts]
  | cons c l ih =>
    unfold words at ih
    rw [words, List.splitOnP_cons_eq_if_modifyHead]
    unfold starts
    cases hc : isWhitespace c with
    | true => simp [ih.1]
    | false =>
      obtain ⟨w, ws, hw⟩ := List.exists_cons_of_ne_nil (List.splitOnP_ne_nil isWhitespace l)
      rw [hw] at ih ⊢
      simp only [List.tail_cons] at ih
      simp [ih.2, Nat.add_comm]

/-! The task itself. -/

section
variable [Collector κ UInt8 (List UInt8)]

/-- What the task makes of a byte, or the collector where there is none. -/
def trims (_ : Bool) (c : UInt8) (p : Option ReaderTaskTrim × κ) :
    Outcome (Option ReaderTaskTrim × κ) :=
  match p.1 with
  | none => (Collector.accumulate p.2 c).bind fun k => .ok (none, k)
  | some t => (t.perform c p.2).bind fun r => .ok (some r.1, r.2)

theorem folds_trims :
    Folds (fun _ => True) (trims : Bool → UInt8 → Option ReaderTaskTrim × κ → _) where
  perform c p criteria _ := by
    obtain ⟨task, k⟩ := p
    cases task with
    | none =>
      simp only [performEl, trims]
      cases Collector.accumulate k c <;> rfl
    | some t =>
      simp only [performEl, trims, StreamTask.perform]
      cases t.perform c k <;> rfl
  keeps _ _ _ _ _ _ := trivial

variable [Concatenates κ] {k : κ}

theorem rTrimFlush_spec (t : ReaderTaskTrim) (k : κ) :
    ∃ k', t.rTrimFlush k = .ok ({ t with rTrimming := false }, k') ∧
      Collector.collect k' = Collector.collect k ++ t.rTrim := by
  by_cases hlen : 0 < t.rTrim.length
  · obtain ⟨k', hk', hcollect⟩ := Concatenates.accumulateEls k t.rTrim
    exact ⟨k', by rw [ReaderTaskTrim.rTrimFlush, if_pos hlen, hk']; rfl, hcollect⟩
  · have hnil : t.rTrim = [] := List.length_eq_zero_iff.mp (by omega)
    exact ⟨k, by rw [ReaderTaskTrim.rTrimFlush, if_neg hlen], by rw [hnil, List.append_nil]⟩

/-- From the first word on. -/
theorem feed_given (l held : List UInt8) (gap : Bool) (k : κ) :
    ∃ t k', feed (trims false) l (some ⟨held, false, gap⟩, k) = .ok (some t, k') ∧
      Collector.collect k' = Collector.collect k ++ given held gap l := by
  induction l generalizing held gap k with
  | nil => exact ⟨_, k, rfl, by simp [given]⟩
  | cons c l ih =>
    unfold given
    rw [feed_cons]
    cases hc : isWhitespace c with
    | true =>
      have hstep : trims false c (some ⟨held, false, gap⟩, k) =
          .ok (some ⟨held ++ [c], false, true⟩, k) := by
        simp [trims, ReaderTaskTrim.perform, hc]
      rw [hstep]
      exact ih (held ++ [c]) true k
    | false =>
      cases gap with
      | true =>
        obtain ⟨k₁, hk₁, hheld⟩ := rTrimFlush_spec ⟨held, false, true⟩ k
        obtain ⟨k₂, hk₂, hcollect⟩ := Concatenates.accumulate k₁ c
        have hstep : trims false c (some ⟨held, false, true⟩, k) =
            .ok (some ⟨held, false, false⟩, k₂) := by
          simp [trims, ReaderTaskTrim.perform, hc, hk₁, hk₂]
        obtain ⟨t, k', hfeed, hgiven⟩ := ih held false k₂
        rw [hstep]
        refine ⟨t, k', hfeed, ?_⟩
        simp [hgiven, hcollect, hheld]
      | false =>
        obtain ⟨k₁, hk₁, hcollect⟩ := Concatenates.accumulate k c
        have hstep : trims false c (some ⟨held, false, false⟩, k) =
            .ok (some ⟨held, false, false⟩, k₁) := by
          simp [trims, ReaderTaskTrim.perform, hc, hk₁]
        obtain ⟨t, k', hfeed, hgiven⟩ := ih held false k₁
        rw [hstep]
        refine ⟨t, k', hfeed, ?_⟩
        simp [hgiven, hcollect]

/-- All that a fresh task makes of some bytes. -/
def trimOutput (bs : List UInt8) : List UInt8 :=
  match bs.dropWhile isWhitespace with
  | [] => []
  | c :: l => c :: given [] false l

theorem feed_trims (bs : List UInt8) (k : κ) :
    ∃ t k', feed (trims false) bs (some ReaderTaskTrim.mk'.init, k) = .ok (some t, k') ∧
      Collector.collect k' = Collector.collect k ++ trimOutput bs := by
  induction bs with
  | nil => exact ⟨_, k, rfl, by simp [trimOutput]⟩
  | cons c l ih =>
    rw [feed_cons]
    cases hc : isWhitespace c with
    | true =>
      have hstep : trims false c (some ReaderTaskTrim.mk'.init, k) =
          .ok (some ReaderTaskTrim.mk'.init, k) := by
        simp [trims, ReaderTaskTrim.perform, ReaderTaskTrim.init, hc]
      have hsame : trimOutput (c :: l) = trimOutput l := by simp [trimOutput, hc]
      rw [hstep, hsame]
      exact ih
    | false =>
      obtain ⟨k₁, hk₁, hcollect⟩ := Concatenates.accumulate k c
      have hstep : trims false c (some ReaderTaskTrim.mk'.init, k) =
          .ok (some ⟨[], false, false⟩, k₁) := by
        simp [trims, ReaderTaskTrim.perform, ReaderTaskTrim.init, ReaderTaskTrim.mk', hc, hk₁]
      obtain ⟨t, k', hfeed, hgiven⟩ := feed_given l [] false k₁
      rw [hstep]
      refine ⟨t, k', hfeed, ?_⟩
      simp [hgiven, hcollect, trimOutput, hc]

end

theorem trimOutput_eq_iff (bs : List UInt8) : trimOutput bs = trimmed bs ↔ (words bs).length ≤ 2 := by
  rw [(words_length bs).1]
  unfold trimmed trimOutput
  induction bs with
  | nil => simp [starts]
  | cons c l ih =>
    unfold starts
    cases hc : isWhitespace c with
    | true => simpa [hc] using ih
    | false =>
      have hcons : (c :: l).rdropWhile isWhitespace = c :: l.rdropWhile isWhitespace :=
        rdropWhile_append_cons hc [] l
      simp only [List.dropWhile_cons, hc, Bool.false_eq_true, if_false, if_true, hcons,
        List.cons.injEq, true_and, given_eq_iff]
      omega

section
variable [Collector κ UInt8 (List UInt8)] [Concatenates κ]

theorem Concatenates.settled : SettledCollector κ where
  accumulate k c := by
    obtain ⟨k', hk', -⟩ := Concatenates.accumulate k c
    rw [hk']
    exact Outcome.settled_ok _
  accumulateEls k cs := by
    obtain ⟨k', hk', -⟩ := Concatenates.accumulateEls k cs
    rw [hk']
    exact Outcome.settled_ok _

/-- What a read through a fresh task returns, when `bs` is what it took from the stream. -/
theorem trim_output (c : LoopCriteria UInt8) (k : κ) {s s' : EStream UInt8}
    {bs rest data : List UInt8} {t : Option ReaderTaskTrim} (h : Contains s (bs ++ rest))
    (hend : Contains s' rest)
    (hread : streamCollect c (some ReaderTaskTrim.mk') k s = .ok ((data, t), s')) :
    data = trimOutput bs := by
  have := Concatenates.settled (κ := κ)
  have hlist := h.streamCollect hend hread
  cases hl : bs ++ rest with
  | nil => simp [hl, streamCollect] at hlist
  | cons a l =>
    rw [hl, streamCollect_cons] at hlist
    obtain ⟨⟨q, l'⟩, hloop, hfinish⟩ := Outcome.bind_eq_ok.mp hlist
    have hstart : collectLoop (LoopCriteriaI.steps c + 1) a c
        (some ReaderTaskTrim.mk'.init, Collector.init k).1
        (some ReaderTaskTrim.mk'.init, Collector.init k).2 (a :: l) = .ok (q, l') := hloop
    obtain ⟨taken, htaken, hfeed⟩ := folds_trims.collectLoop_taken (fun _ => rfl) rfl trivial hstart
    obtain ⟨t', k', hfed, hcollect⟩ := feed_trims taken (Collector.init k)
    obtain rfl : (some t', k') = q := Outcome.ok.inj (hfed.symm.trans hfeed)
    cases hfinish
    obtain rfl : bs = taken := List.append_cancel_right (hl.trans htaken)
    rw [hcollect, Concatenates.init, List.nil_append]

/-- A read through a fresh task returns the bytes it took without the whitespace around them, just
if they are not more than two words. -/
theorem trim_iff (c : LoopCriteria UInt8) (k : κ) {s s' : EStream UInt8}
    {bs rest data : List UInt8} {t : Option ReaderTaskTrim} (h : Contains s (bs ++ rest))
    (hend : Contains s' rest)
    (hread : streamCollect c (some ReaderTaskTrim.mk') k s = .ok ((data, t), s')) :
    data = trimmed bs ↔ (words bs).length ≤ 2 := by
  rw [trim_output c k h hend hread]
  exact trimOutput_eq_iff bs

/-- A read of a number of bytes that are there returns. -/
theorem trim_num (k : κ) {s : EStream UInt8} {bs rest : List UInt8} (hne : bs ≠ [])
    (h : Holds s (bs ++ rest)) :
    ∃ t s', streamCollect (LoopCriteria.mk' .untilNumElements true bs.length ([] : List UInt8))
        (some ReaderTaskTrim.mk') k s = .ok ((trimOutput bs, t), s') ∧ Holds s' rest := by
  have := Concatenates.settled (κ := κ)
  obtain ⟨pre, u, rfl⟩ : ∃ pre u, bs = pre ++ [u] :=
    ⟨bs.dropLast, bs.getLast hne, (List.dropLast_append_getLast hne).symm⟩
  obtain ⟨t, k', hfeed, hcollect⟩ := feed_trims (pre ++ [u]) (Collector.init k)
  rw [feed_append] at hfeed
  obtain ⟨q, hq, hlast⟩ := Outcome.bind_eq_ok.mp hfeed
  have hlast' : trims true u q = .ok (some t, k') := by
    rw [feed_cons] at hlast
    obtain ⟨q', hq', hend⟩ := Outcome.bind_eq_ok.mp hlast
    cases hend
    exact hq'
  have hlist := folds_trims.streamCollect_num [] pre.length (some ReaderTaskTrim.mk') k
    (pre ++ [u] ++ rest) trivial
  rw [Concatenates.init, List.nil_append] at hcollect
  have hcount : (pre ++ [u]).length = pre.length + 1 := by simp
  have hread : streamCollect (LoopCriteria.mk' .untilNumElements true (pre ++ [u]).length
      ([] : List UInt8))
      (some ReaderTaskTrim.mk') k (pre ++ [u] ++ rest) =
        .ok ((trimOutput (pre ++ [u]), some t), rest) := by
    rw [hcount, hlist]
    have hinit : (Option.map StreamTask.init (some ReaderTaskTrim.mk'), Collector.init k) =
        (some ReaderTaskTrim.mk'.init, Collector.init k) := rfl
    have htake : (pre ++ [u] ++ rest).take pre.length = pre := by simp
    have hdrop : (pre ++ [u] ++ rest).drop pre.length = u :: rest := by simp
    rw [hinit, htake, hq, hdrop]
    simp [hlast', finish, flushTask, StreamTask.flush, hcollect]
  have hrel := holds_sim.streamCollect (LoopCriteria.mk' .untilNumElements true (pre ++ [u]).length
      ([] : List UInt8))
    (some ReaderTaskTrim.mk') k s _ h
  rw [hread] at hrel
  obtain ⟨s', hs', h'⟩ := hrel.of_ok
  exact ⟨some t, s', hs', h'⟩

end

theorem trim_iff_two_words : ∃ t s',
    streamCollect (LoopCriteria.mk' .untilNumElements true 5 ([] : List UInt8))
        (some ReaderTaskTrim.mk')
        (⟨[]⟩ : ArrayCollector UInt8) (EStream.ofBuffer [32, 97, 32, 98, 32]) =
      .ok (([97, 32, 98], t), s') := by
  have h : Holds (EStream.ofBuffer [32, 97, 32, 98, 32]) ([(32 : UInt8), 97, 32, 98, 32] ++ []) :=
    holds_ofBuffer [32, 97, 32, 98, 32]
  have hne : ([32, 97, 32, 98, 32] : List UInt8) ≠ [] := by simp
  obtain ⟨t, s', hread, h'⟩ := trim_num (⟨[]⟩ : ArrayCollector UInt8) hne h
  have htwo : (words [32, 97, 32, 98, 32]).length ≤ 2 := by decide
  have htrimmed := (trim_iff _ _ (Or.inl h) (Or.inl h') hread).mpr htwo
  have hvalue : trimmed [32, 97, 32, 98, 32] = [97, 32, 98] := by decide
  rw [htrimmed, hvalue] at hread
  exact ⟨t, s', hread⟩

/-- Of `"a b c"` the task makes `"a b  c"`. -/
theorem trim_three_words : ¬ ∀ (c : LoopCriteria UInt8) (k : ArrayCollector UInt8)
    (s s' : EStream UInt8) (bs rest data : List UInt8) (t : Option ReaderTaskTrim),
    Contains s (bs ++ rest) → Contains s' rest →
    streamCollect c (some ReaderTaskTrim.mk') k s = .ok ((data, t), s') → data = trimmed bs := by
  intro hevery
  have h : Holds (EStream.ofBuffer [97, 32, 98, 32, 99]) ([(97 : UInt8), 32, 98, 32, 99] ++ []) :=
    holds_ofBuffer [97, 32, 98, 32, 99]
  have hne : ([97, 32, 98, 32, 99] : List UInt8) ≠ [] := by simp
  obtain ⟨t, s', hread, h'⟩ := trim_num (⟨[]⟩ : ArrayCollector UInt8) hne h
  have heq := hevery _ _ _ _ _ _ _ _ (Or.inl h) (Or.inl h') hread
  have hthree := (trimOutput_eq_iff _).mp heq
  exact absurd hthree (by decide)

end WylesLibs.Stream
