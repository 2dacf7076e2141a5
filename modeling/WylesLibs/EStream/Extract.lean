import WylesLibs.EStream.Bail
import WylesLibs.EStream.Naturals

/-! What an inclusive read with `ReaderTaskExtract` takes, for any bytes to end at: space and then
either nothing or a token between quotes, with whatever the task lets stand behind the token. -/
namespace WylesLibs.Stream
open Library

/-- The byte that the task remembers of what stands behind the closing quote. -/
def keyJunk (junk c : UInt8) : UInt8 :=
  if c = Byte.quote ∨ isWhitespace c = true then junk else c

/-! The task at its single elements. -/

def waiting (rTrim : List UInt8) : ReaderTaskExtract :=
  ⟨rTrim, true, false, 0, 0, Byte.quote, Byte.quote⟩

def inside (rTrim : List UInt8) : ReaderTaskExtract :=
  ⟨rTrim, false, false, 0, 0, Byte.quote, Byte.quote⟩

def behind (rTrim : List UInt8) (junk : UInt8) : ReaderTaskExtract :=
  ⟨rTrim, false, true, junk, 0, Byte.quote, Byte.quote⟩

def ended (rTrim : List UInt8) (junk c : UInt8) : ReaderTaskExtract :=
  ⟨rTrim, false, true, junk, c, Byte.quote, Byte.quote⟩

/-- Criteria that only say whether an element is the last one. -/
def criteriaAt (last : Bool) : LoopCriteria UInt8 :=
  ⟨if last then .goodAtLast else .good, .untilMatch, true, 0, []⟩

@[simp] theorem isAtLast_criteriaAt (last : Bool) :
    (LoopCriteriaI.state (criteriaAt last)).isAtLast = last := by
  cases last <;> rfl

/-- Of the criteria the task only asks whether the element is the last one. -/
theorem ReaderTaskExtract.perform_criteriaAt {γ κ ρ : Type} [LoopCriteriaI γ UInt8]
    [Collector κ UInt8 ρ] (t : ReaderTaskExtract) (c : UInt8) (criteria : γ) (k : κ) :
    t.perform c criteria k =
      (t.perform c (criteriaAt (LoopCriteriaI.state criteria).isAtLast) k).bind fun r =>
        .ok (r.1, criteria, r.2.2) := by
  simp only [ReaderTaskExtract.perform, isAtLast_criteriaAt]
  repeat' split
  all_goals simp only [Outcome.bind_assoc, Outcome.bind_ok, Outcome.bind_thrown]

/-- What the task makes of an element, given whether it is the last one. -/
def extracted (last : Bool) (c : UInt8) (p : Option ReaderTaskExtract × ArrayCollector UInt8) :
    Outcome (Option ReaderTaskExtract × ArrayCollector UInt8) :=
  match p.1 with
  | none => .undef
  | some t => (t.perform c (criteriaAt last) p.2).bind fun r => .ok (some r.1, r.2.2)

theorem folds_extracted :
    Folds (fun p : Option ReaderTaskExtract × ArrayCollector UInt8 => p.1.isSome) extracted where
  perform c p criteria hp := by
    obtain ⟨task, collector⟩ := p
    cases task with
    | none => cases hp
    | some t =>
      have hstep := t.perform_criteriaAt c criteria collector
      simp only [performEl, extracted, StreamTask.perform]
      rw [hstep]
      simp only [Outcome.bind_assoc, Outcome.bind_ok]
  keeps last c p q hp h := by
    obtain ⟨task, collector⟩ := p
    cases task with
    | none => cases hp
    | some t =>
      obtain ⟨r, -, hr⟩ := Outcome.bind_eq_ok.mp h
      cases hr
      rfl

section
variable {c junk : UInt8} {rTrim : List UInt8} {k : ArrayCollector UInt8} {last : Bool}

theorem extracted_waiting_space (hc : isWhitespace c = true) :
    extracted last c (some (waiting rTrim), k) = .ok (some (waiting rTrim), k) := by
  simp [extracted, ReaderTaskExtract.perform, waiting, hc]

theorem extracted_waiting_quote :
    extracted last Byte.quote (some (waiting rTrim), k) = .ok (some (inside rTrim), k) := by
  have hq : isWhitespace Byte.quote = false := by decide
  simp [extracted, ReaderTaskExtract.perform, waiting, inside, hq]

theorem extracted_waiting_last (hc : isWhitespace c = false) (hq : c ≠ Byte.quote) :
    extracted true c (some (waiting rTrim), k) = .ok (some (waiting rTrim), ⟨k.data ++ [c]⟩) := by
  simp [extracted, ReaderTaskExtract.perform, waiting, hc, hq, criteriaAt, LoopCriteriaI.state,
    LoopCriteriaState.isAtLast, Collector.accumulate]

theorem extracted_waiting_other (hc : isWhitespace c = false) (hq : c ≠ Byte.quote) :
    extracted false c (some (waiting rTrim), k) =
      .thrown ("Found non-whitespace char left of token. " ++ quoteChar c) := by
  simp [extracted, ReaderTaskExtract.perform, waiting, hc, hq, criteriaAt, LoopCriteriaI.state,
    LoopCriteriaState.isAtLast]

theorem extracted_inside (hq : c ≠ Byte.quote) :
    extracted last c (some (inside rTrim), k) = .ok (some (inside rTrim), ⟨k.data ++ [c]⟩) := by
  simp [extracted, ReaderTaskExtract.perform, inside, hq.symm, Collector.accumulate]

theorem extracted_inside_quote :
    extracted last Byte.quote (some (inside rTrim), k) =
      .ok (some (behind (rTrim ++ [Byte.quote]) 0), k) := by
  simp [extracted, ReaderTaskExtract.perform, inside, behind]

theorem extracted_behind :
    extracted false c (some (behind rTrim junk), k) =
      .ok (some (behind (rTrim ++ [c]) (keyJunk junk c)), k) := by
  by_cases hq : c = Byte.quote
  · simp [extracted, ReaderTaskExtract.perform, behind, keyJunk, hq]
  · cases hc : isWhitespace c <;>
      simp [extracted, ReaderTaskExtract.perform, behind, keyJunk, hq, Ne.symm hq, hc,
        criteriaAt, LoopCriteriaI.state, LoopCriteriaState.isAtLast]

theorem extracted_behind_last (hq : c ≠ Byte.quote) :
    extracted true c (some (behind rTrim junk), k) =
      .ok (some (ended (rTrim ++ [c]) junk c), k) := by
  simp [extracted, ReaderTaskExtract.perform, behind, ended, hq.symm, criteriaAt,
    LoopCriteriaI.state, LoopCriteriaState.isAtLast]

theorem flush_waiting :
    flushTask (some (waiting rTrim)) k = .ok (some (waiting rTrim).init, k) := by
  simp [flushTask, StreamTask.flush, ReaderTaskExtract.flush, waiting]

theorem flush_inside :
    flushTask (some (inside rTrim)) k = .thrown "Found open ended token." := by
  simp [flushTask, StreamTask.flush, ReaderTaskExtract.flush, inside]

/-- A zero byte at which the read ended is left out. -/
theorem flush_ended :
    flushTask (some (ended rTrim 0 c)) k =
      .ok (some (ended rTrim 0 c).init, ⟨k.data ++ if c = 0 then [] else [c]⟩) := by
  by_cases hc : c = 0 <;>
    simp [flushTask, StreamTask.flush, ReaderTaskExtract.flush, ended, hc, Collector.accumulate]

theorem flush_ended_junk (hj : junk ≠ 0) :
    flushTask (some (ended rTrim junk c)) k =
      .thrown ("Found non-whitespace char right of token. " ++ quoteChar junk) := by
  simp [flushTask, StreamTask.flush, ReaderTaskExtract.flush, ended, hj]

end

/-! The task over what stands before the delimiter. -/

theorem feed_behind (tail : List UInt8) (rTrim : List UInt8) (junk : UInt8)
    (k : ArrayCollector UInt8) :
    feed (extracted false) tail (some (behind rTrim junk), k) =
      .ok (some (behind (rTrim ++ tail) (tail.foldl keyJunk junk)), k) := by
  induction tail generalizing rTrim junk with
  | nil => simp
  | cons c tail ih => simp [feed_cons, extracted_behind, ih]

theorem feed_inside {body : List UInt8} (hb : Byte.quote ∉ body) (rTrim data : List UInt8) :
    feed (extracted false) body (some (inside rTrim), ⟨data⟩) =
      .ok (some (inside rTrim), ⟨data ++ body⟩) := by
  induction body generalizing data with
  | nil => simp
  | cons c body ih =>
    obtain ⟨hc, hb⟩ : Byte.quote ≠ c ∧ Byte.quote ∉ body := by simpa using hb
    simp [feed_cons, extracted_inside (Ne.symm hc), ih hb]

theorem feed_waiting_space {space : List UInt8} (hs : ∀ c ∈ space, isWhitespace c = true)
    (rTrim : List UInt8) (k : ArrayCollector UInt8) :
    feed (extracted false) space (some (waiting rTrim), k) = .ok (some (waiting rTrim), k) := by
  induction space with
  | nil => rfl
  | cons c space ih =>
    obtain ⟨hc, hs⟩ := List.forall_mem_cons.mp hs
    simp [feed_cons, extracted_waiting_space hc, ih hs]

/-- What may stand before the delimiter: space alone, or space and a quote. -/
theorem feed_waiting_inv {pre : List UInt8} {rTrim : List UInt8} {k : ArrayCollector UInt8}
    {q : Option ReaderTaskExtract × ArrayCollector UInt8}
    (h : feed (extracted false) pre (some (waiting rTrim), k) = .ok q) :
    (∀ c ∈ pre, isWhitespace c = true) ∨
      ∃ space more, pre = space ++ Byte.quote :: more ∧ ∀ c ∈ space, isWhitespace c = true := by
  induction pre with
  | nil => simp
  | cons c pre ih =>
    rw [feed_cons] at h
    cases hc : isWhitespace c with
    | true =>
      rw [extracted_waiting_space hc] at h
      obtain hall | ⟨space, more, rfl, hs⟩ := ih h
      · exact Or.inl (List.forall_mem_cons.mpr ⟨hc, hall⟩)
      · exact Or.inr ⟨c :: space, more, rfl, List.forall_mem_cons.mpr ⟨hc, hs⟩⟩
    | false =>
      by_cases hq : c = Byte.quote
      · subst hq
        exact Or.inr ⟨[], pre, rfl, by simp⟩
      · rw [extracted_waiting_other hc hq] at h
        cases h

/-! The read. -/

/-- A task for tokens in quotes, whatever an earlier read has left in it. -/
def ReaderTaskExtract.quoted (t : ReaderTaskExtract) : ReaderTaskExtract :=
  { t with leftMostChar := Byte.quote, rightMostChar := Byte.quote }

/-- What the read returns for the bytes in front of the one at which it ends. -/
inductive Extracts (u : UInt8) : List UInt8 → List UInt8 → Prop where
  | bare {space : List UInt8} (hspace : ∀ c ∈ space, isWhitespace c = true) :
      Extracts u space [u]
  | quoted {space token tail : List UInt8} (hspace : ∀ c ∈ space, isWhitespace c = true)
      (htoken : Byte.quote ∉ token) (htail : tail.foldl keyJunk 0 = 0) :
      Extracts u (space ++ Byte.quote :: token ++ Byte.quote :: tail)
        (token ++ if u = 0 then [] else [u])

section
variable {u : UInt8} {pre data rTrim : List UInt8}

theorem Extracts.taken (h : Extracts u pre data) (hu : isWhitespace u = false)
    (hq : u ≠ Byte.quote) (rTrim : List UInt8) :
    ∃ q q' : Option ReaderTaskExtract × ArrayCollector UInt8,
      feed (extracted false) pre (some (waiting rTrim), ⟨[]⟩) = .ok q ∧
      extracted true u q = .ok q' ∧ ∃ r, flushTask q'.1 q'.2 = .ok r ∧ data = r.2.data := by
  cases h with
  | bare hspace =>
    exact ⟨_, _, feed_waiting_space hspace rTrim _, extracted_waiting_last hu hq, _, flush_waiting,
      rfl⟩
  | @quoted space token tail hspace htoken htail =>
    have hfeed := feed_waiting_space hspace rTrim (⟨[]⟩ : ArrayCollector UInt8)
    have hpre : feed (extracted false) (space ++ Byte.quote :: token ++ Byte.quote :: tail)
        (some (waiting rTrim), ⟨[]⟩) =
          .ok (some (behind (rTrim ++ Byte.quote :: tail) 0), ⟨token⟩) := by
      simp [feed_append, feed_cons, hfeed, extracted_waiting_quote, feed_inside htoken,
        extracted_inside_quote, feed_behind, htail]
    exact ⟨_, _, hpre, extracted_behind_last hq, _, flush_ended, rfl⟩

theorem Extracts.of_feed (hu : isWhitespace u = false) (hq : u ≠ Byte.quote)
    {q q' : Option ReaderTaskExtract × ArrayCollector UInt8}
    {r : Option ReaderTaskExtract × ArrayCollector UInt8}
    (hfeed : feed (extracted false) pre (some (waiting rTrim), ⟨[]⟩) = .ok q)
    (hlast : extracted true u q = .ok q') (hflush : flushTask q'.1 q'.2 = .ok r) :
    Extracts u pre r.2.data := by
  obtain hs | ⟨space, more, rfl, hs⟩ := feed_waiting_inv hfeed
  · -- no quote before the end
    rw [feed_waiting_space hs] at hfeed
    cases hfeed
    rw [extracted_waiting_last hu hq] at hlast
    cases hlast
    rw [flush_waiting] at hflush
    cases hflush
    exact .bare hs
  · rw [feed_append, feed_waiting_space hs, Outcome.bind_ok, feed_cons, extracted_waiting_quote,
      Outcome.bind_ok] at hfeed
    by_cases hmem : Byte.quote ∈ more
    · obtain ⟨token, tail, rfl, htoken⟩ := List.eq_append_cons_of_mem hmem
      rw [feed_append, feed_inside htoken, Outcome.bind_ok, feed_cons, extracted_inside_quote,
        Outcome.bind_ok, feed_behind] at hfeed
      cases hfeed
      rw [extracted_behind_last hq] at hlast
      cases hlast
      by_cases hj : tail.foldl keyJunk 0 = 0
      · rw [hj, flush_ended] at hflush
        cases hflush
        have h := Extracts.quoted (u := u) hs htoken hj
        rwa [List.append_assoc] at h
      · rw [flush_ended_junk hj] at hflush
        cases hflush
    · rw [feed_inside hmem] at hfeed
      cases hfeed
      rw [extracted_inside hq] at hlast
      cases hlast
      rw [flush_inside] at hflush
      cases hflush

end

section
variable {untilEls l l' data : List UInt8} {task : Option ReaderTaskExtract}

theorem streamCollect_extract_iff (t : ReaderTaskExtract)
    (hspace : ∀ u ∈ untilEls, isWhitespace u = false) (hquote : Byte.quote ∉ untilEls) :
    (∃ task, streamCollect (LoopCriteria.mk' .untilMatch true 0 untilEls) (some t.quoted)
        (⟨[]⟩ : ArrayCollector UInt8) l = .ok ((data, task), l')) ↔
      ∃ pre u, l = pre ++ u :: l' ∧ (∀ a ∈ pre, a ∉ untilEls) ∧ u ∈ untilEls ∧
        seen true pre l' ≤ arbitrarySpatialUntilLimit ∧ Extracts u pre data := by
  have hp : (Option.isSome (α := ReaderTaskExtract) ((some t.quoted).map StreamTask.init)) = true :=
    rfl
  constructor
  · rintro ⟨task, h⟩
    obtain ⟨pre, u, rest, rfl, hpre, hu, hlimit, hend⟩ :=
      folds_extracted.streamCollect_until_inv hp h
    obtain ⟨⟨q₂, l₂⟩, hread, hfin⟩ := Outcome.bind_eq_ok.mp hend
    obtain ⟨q, hfeed, hread⟩ := Outcome.bind_eq_ok.mp hread
    obtain ⟨q', hlast, hread⟩ := Outcome.bind_eq_ok.mp hread
    cases hread
    obtain ⟨r, hflush, hfin⟩ := Outcome.bind_eq_ok.mp hfin
    cases hfin
    exact ⟨pre, u, rfl, hpre, hu, hlimit, .of_feed (hspace u hu) (fun h => hquote (h ▸ hu)) hfeed
      hlast hflush⟩
  · rintro ⟨pre, u, rfl, hpre, hu, hlimit, hextracts⟩
    obtain ⟨q, q', hfeed, hlast, r, hflush, rfl⟩ :=
      hextracts.taken (hspace u hu) (fun h => hquote (h ▸ hu)) t.rTrim
    have hread : readEnd extracted true pre u l' ((some t.quoted).map StreamTask.init,
        Collector.init (⟨[]⟩ : ArrayCollector UInt8)) = .ok (q', l') := by
      refine Outcome.bind_eq_ok.mpr ⟨q, hfeed, ?_⟩
      simp [hlast]
    have hfin : finish (q', l') = .ok ((r.2.data, r.1), l') := by
      simp [finish, hflush, Collector.collect]
    refine ⟨r.1, (folds_extracted.streamCollect_until hpre hu hlimit _ _ hp).trans ?_⟩
    rw [hread]
    exact hfin

end

/-! The grammar of tokens. -/

/-- Space, a token in quotes and space, or space alone. -/
inductive TokenForm (u : UInt8) : List UInt8 → List UInt8 → Prop where
  | bare {space : List UInt8} (hspace : ∀ c ∈ space, isWhitespace c = true) :
      TokenForm u space [u]
  | quoted {space token space' : List UInt8} (hspace : ∀ c ∈ space, isWhitespace c = true)
      (htoken : Byte.quote ∉ token) (hspace' : ∀ c ∈ space', isWhitespace c = true) :
      TokenForm u (space ++ Byte.quote :: token ++ Byte.quote :: space') (token ++ [u])

/-- The contents up to the first of the bytes to end at are in the grammar, and `data` is what they
stand for. -/
def InGrammar (untilEls l data l' : List UInt8) : Prop :=
  ∃ pre u, l = pre ++ u :: l' ∧ (∀ a ∈ pre, a ∉ untilEls) ∧ u ∈ untilEls ∧ TokenForm u pre data

/-- The read accepts its grammar and nothing else. -/
def AcceptsGrammar (untilEls : List UInt8) (t : ReaderTaskExtract) (s : EStream UInt8)
    (l : List UInt8) : Prop :=
  (∀ data l', InGrammar untilEls l data l' →
    ∃ s', read untilEls (some t.quoted) true s = .ok (data, s') ∧ Contains s' l') ∧
  ((∀ data l', ¬ InGrammar untilEls l data l') →
    ∃ w, read untilEls (some t.quoted) true s = .thrown w)

theorem keyJunk_space {tail : List UInt8} (h : ∀ c ∈ tail, isWhitespace c = true) (junk : UInt8) :
    tail.foldl keyJunk junk = junk := by
  induction tail with
  | nil => rfl
  | cons c tail ih =>
    obtain ⟨hc, h⟩ := List.forall_mem_cons.mp h
    rw [List.foldl_cons, keyJunk, if_pos (Or.inr hc), ih h]

section
variable {u : UInt8} {pre data data' : List UInt8}

/-- What stands in front of the end is taken in one way only. -/
theorem quoted_inj {space token tail space₁ token₁ tail₁ : List UInt8}
    (hspace : ∀ c ∈ space, isWhitespace c = true) (hspace₁ : ∀ c ∈ space₁, isWhitespace c = true)
    (htoken : Byte.quote ∉ token) (htoken₁ : Byte.quote ∉ token₁)
    (h : space ++ Byte.quote :: token ++ Byte.quote :: tail =
      space₁ ++ Byte.quote :: token₁ ++ Byte.quote :: tail₁) : token = token₁ ∧ tail = tail₁ := by
  rw [List.append_assoc, List.append_assoc] at h
  obtain ⟨-, hrest⟩ := delimited_inj hspace hspace₁ (by decide) (by decide) h
  exact delimited_inj (p := (· ≠ Byte.quote)) (fun a ha hq => htoken (hq ▸ ha))
    (fun a ha hq => htoken₁ (hq ▸ ha)) (by simp) (by simp) hrest

theorem not_space_of_quoted {space token tail : List UInt8}
    (h : ∀ c ∈ space ++ Byte.quote :: token ++ Byte.quote :: tail, isWhitespace c = true) : False := by
  have hquote := h Byte.quote (by simp)
  exact absurd hquote (by decide)

theorem Extracts.inv (h : Extracts u pre data) :
    ((∀ c ∈ pre, isWhitespace c = true) ∧ data = [u]) ∨
      ∃ space token tail, pre = space ++ Byte.quote :: token ++ Byte.quote :: tail ∧
        (∀ c ∈ space, isWhitespace c = true) ∧ Byte.quote ∉ token ∧ tail.foldl keyJunk 0 = 0 ∧
        data = token ++ if u = 0 then [] else [u] := by
  cases h with
  | bare hspace => exact Or.inl ⟨hspace, rfl⟩
  | @quoted space token tail hspace htoken htail =>
    exact Or.inr ⟨space, token, tail, rfl, hspace, htoken, htail, rfl⟩

theorem TokenForm.inv (h : TokenForm u pre data) :
    ((∀ c ∈ pre, isWhitespace c = true) ∧ data = [u]) ∨
      ∃ space token space', pre = space ++ Byte.quote :: token ++ Byte.quote :: space' ∧
        (∀ c ∈ space, isWhitespace c = true) ∧ Byte.quote ∉ token ∧
        (∀ c ∈ space', isWhitespace c = true) ∧ data = token ++ [u] := by
  cases h with
  | bare hspace => exact Or.inl ⟨hspace, rfl⟩
  | @quoted space token space' hspace htoken hspace' =>
    exact Or.inr ⟨space, token, space', rfl, hspace, htoken, hspace', rfl⟩

theorem Extracts.unique (h : Extracts u pre data) (h' : Extracts u pre data') : data = data' := by
  cases h with
  | bare hspace =>
    obtain ⟨-, rfl⟩ | ⟨space, token, tail, rfl, -⟩ := h'.inv
    · rfl
    · exact (not_space_of_quoted hspace).elim
  | @quoted space token tail hspace htoken htail =>
    obtain ⟨hall, -⟩ | ⟨space₁, token₁, tail₁, hpre, hspace₁, htoken₁, -, rfl⟩ := h'.inv
    · exact (not_space_of_quoted hall).elim
    · rw [(quoted_inj hspace hspace₁ htoken htoken₁ hpre).1]

end

/-- The read sees no more elements than it may, and the descriptor says that it is at its end if the
read takes all there is. -/
def Completes (s : EStream UInt8) (l pre l' : List UInt8) : Prop :=
  seen true pre l' ≤ arbitrarySpatialUntilLimit ∧ (l' ≠ [] ∨ Holds s l)

section
variable {untilEls l : List UInt8} {s : EStream UInt8}

theorem read_extract_cases (t : ReaderTaskExtract) (h : Contains s l)
    (hspace : ∀ u ∈ untilEls, isWhitespace u = false) (hquote : Byte.quote ∉ untilEls) :
    (∃ pre u l' data s', l = pre ++ u :: l' ∧ (∀ a ∈ pre, a ∉ untilEls) ∧ u ∈ untilEls ∧
      Completes s l pre l' ∧ Extracts u pre data ∧
      read untilEls (some t.quoted) true s = .ok (data, s') ∧ Contains s' l') ∨
    (∃ w, read untilEls (some t.quoted) true s = .thrown w) ∧
      ∀ pre u l' data, l = pre ++ u :: l' → (∀ a ∈ pre, a ∉ untilEls) → u ∈ untilEls →
        Completes s l pre l' → ¬ Extracts u pre data := by
  obtain ⟨⟨data, task⟩, l', s', hlist, hleft, hs, h'⟩ | ⟨⟨w, hs⟩, hnone⟩ :=
    Contains.streamCollect_cases (LoopCriteria.mk' .untilMatch true 0 untilEls) (some t.quoted)
      (⟨[]⟩ : ArrayCollector UInt8) h
  · obtain ⟨pre, u, hl, hpre, hu, hlimit, hextracts⟩ :=
      (streamCollect_extract_iff t hspace hquote).mp ⟨task, hlist⟩
    exact Or.inl ⟨pre, u, l', data, s', hl, hpre, hu, ⟨hlimit, hleft⟩, hextracts,
      by simp [read, hs], h'⟩
  · refine Or.inr ⟨⟨w, by simp [read, hs]⟩, ?_⟩
    intro pre u l' data hl hpre hu hcompletes hextracts
    obtain ⟨task, hlist⟩ := (streamCollect_extract_iff t hspace hquote).mpr
      ⟨pre, u, hl, hpre, hu, hcompletes.1, hextracts⟩
    obtain ⟨rfl, hnot⟩ := hnone _ _ hlist
    obtain hne | hholds := hcompletes.2
    · exact hne rfl
    · exact hnot hholds

/-- The first byte to end at is determined. -/
theorem first_until_inj {pre pre₁ l' l₁ : List UInt8} {u u₁ : UInt8} (hpre : ∀ a ∈ pre, a ∉ untilEls)
    (hpre₁ : ∀ a ∈ pre₁, a ∉ untilEls) (hu : u ∈ untilEls) (hu₁ : u₁ ∈ untilEls)
    (h : pre ++ u :: l' = pre₁ ++ u₁ :: l₁) : pre = pre₁ ∧ u = u₁ ∧ l' = l₁ := by
  obtain ⟨rfl, rfl⟩ := delimited_inj hpre hpre₁ (not_not.mpr hu) (not_not.mpr hu₁) h
  obtain ⟨rfl, -⟩ := List.cons.inj (List.append_cancel_left h)
  exact ⟨rfl, rfl, rfl⟩

/-- The grammar is accepted, and only it, where what it allows can be read to its end, and what
stands behind the token that the read takes is space, up to a byte that is not zero. -/
theorem accepts_grammar_iff (t : ReaderTaskExtract) (h : Contains s l)
    (hspace : ∀ u ∈ untilEls, isWhitespace u = false) (hquote : Byte.quote ∉ untilEls) :
    AcceptsGrammar untilEls t s l ↔
      ∀ pre u l', l = pre ++ u :: l' → (∀ a ∈ pre, a ∉ untilEls) → u ∈ untilEls →
        ((∃ data, TokenForm u pre data) → Completes s l pre l') ∧
        (Completes s l pre l' → ∀ space token tail,
          pre = space ++ Byte.quote :: token ++ Byte.quote :: tail →
          (∀ c ∈ space, isWhitespace c = true) → Byte.quote ∉ token → tail.foldl keyJunk 0 = 0 →
            u ≠ 0 ∧ ∀ c ∈ tail, isWhitespace c = true) := by
  have hcases := read_extract_cases t h hspace hquote
  constructor
  · intro hcase pre u l' hl hpre hu
    obtain ⟨hin, hout⟩ := hcase
    constructor
    · intro hcase
      obtain ⟨data, hform⟩ := hcase
      obtain ⟨s', hread, -⟩ := hin data l' ⟨pre, u, hl, hpre, hu, hform⟩
      obtain ⟨pre₁, u₁, l₁, data₁, s₁, hl₁, hpre₁, hu₁, hcompletes, -⟩ | ⟨⟨w, hthrown⟩, -⟩ := hcases
      · obtain ⟨rfl, rfl, rfl⟩ := first_until_inj hpre hpre₁ hu hu₁ (hl.symm.trans hl₁)
        exact hcompletes
      · rw [hread] at hthrown
        cases hthrown
    · intro hcompletes space token tail hquoted hspaces htoken htail
      have hextracts : Extracts u pre (token ++ if u = 0 then [] else [u]) :=
        hquoted ▸ .quoted hspaces htoken htail
      obtain ⟨pre₁, u₁, l₁, data₁, s₁, hl₁, hpre₁, hu₁, -, hextracts₁, hread₁, -⟩ | ⟨-, hnone⟩ :=
        hcases
      · obtain ⟨rfl, rfl, rfl⟩ := first_until_inj hpre hpre₁ hu hu₁ (hl.symm.trans hl₁)
        obtain rfl := hextracts.unique hextracts₁
        -- it is read, so it is in the grammar
        have hgrammar : ∃ data l', InGrammar untilEls l data l' := by
          by_contra hnone
          obtain ⟨w, hthrown⟩ := hout fun data l' hd => hnone ⟨data, l', hd⟩
          rw [hread₁] at hthrown
          cases hthrown
        obtain ⟨data, l₂, hgrammar⟩ := hgrammar
        obtain ⟨s₂, hread₂, -⟩ := hin data l₂ hgrammar
        obtain ⟨pre₂, u₂, hl₂, hpre₂, hu₂, hform⟩ := hgrammar
        obtain ⟨rfl, rfl, rfl⟩ := first_until_inj hpre hpre₂ hu hu₂ (hl.symm.trans hl₂)
        rw [hread₁] at hread₂
        cases hread₂
        obtain ⟨hall, -⟩ | ⟨space₁, token₁, tail₁, hquoted₁, hspaces₁, htoken₁, htail₁, hdata⟩ :=
          hform.inv
        · exact (not_space_of_quoted (hquoted ▸ hall)).elim
        · obtain ⟨rfl, rfl⟩ := quoted_inj hspaces hspaces₁ htoken htoken₁ (hquoted.symm.trans hquoted₁)
          refine ⟨?_, htail₁⟩
          rintro rfl
          simp at hdata
      · exact absurd hextracts (hnone pre u l' _ hl hpre hu hcompletes)
  · intro hcond
    constructor
    · rintro data l' ⟨pre, u, hl, hpre, hu, hform⟩
      obtain ⟨hcompletes, hquoted⟩ := hcond pre u l' hl hpre hu
      have hdone := hcompletes ⟨data, hform⟩
      have hextracts : Extracts u pre data := by
        cases hform with
        | bare hspaces => exact .bare hspaces
        | @quoted space token space' hspaces htoken hspaces' =>
          have hjunk := keyJunk_space hspaces' 0
          have hne := (hquoted hdone space token space' rfl hspaces htoken hjunk).1
          have hextracts := Extracts.quoted (u := u) hspaces htoken hjunk
          rwa [if_neg hne] at hextracts
      obtain ⟨pre₁, u₁, l₁, data₁, s₁, hl₁, hpre₁, hu₁, -, hextracts₁, hread₁, h₁⟩ | ⟨-, hnone⟩ :=
        hcases
      · obtain ⟨rfl, rfl, rfl⟩ := first_until_inj hpre hpre₁ hu hu₁ (hl.symm.trans hl₁)
        rw [hextracts.unique hextracts₁]
        exact ⟨s₁, hread₁, h₁⟩
      · exact absurd hextracts (hnone pre u l' data hl hpre hu hdone)
    · intro hnot
      obtain ⟨pre, u, l', data, s', hl, hpre, hu, hdone, hextracts, -⟩ | ⟨hthrown, -⟩ := hcases
      · exfalso
        obtain ⟨hall, -⟩ | ⟨space, token, tail, rfl, hspaces, htoken, htail, -⟩ := hextracts.inv
        · exact hnot _ _ ⟨pre, u, hl, hpre, hu, .bare hall⟩
        · obtain ⟨-, htail'⟩ :=
            (hcond _ u l' hl hpre hu).2 hdone space token tail rfl hspaces htoken htail
          exact hnot _ _ ⟨_, u, hl, hpre, hu, .quoted hspaces htoken htail'⟩
      · exact hthrown

theorem isWhitespace_colon : ∀ u ∈ [Byte.colon], isWhitespace u = false := by
  intro u hu
  rw [List.mem_singleton.mp hu]
  decide

/-- `"k":` is in the grammar and accepted. -/
theorem accepts_grammar_k :
    AcceptsGrammar [Byte.colon] (ReaderTaskExtract.mk' Byte.quote Byte.quote)
      (EStream.ofBuffer [Byte.quote, 0x6B, Byte.quote, Byte.colon])
      [Byte.quote, 0x6B, Byte.quote, Byte.colon] := by
  have hholds := holds_ofBuffer [Byte.quote, 0x6B, Byte.quote, Byte.colon]
  rw [accepts_grammar_iff _ (Or.inl hholds) isWhitespace_colon (by decide)]
  intro pre u l' hl hpre hu
  have hcut : [Byte.quote, 0x6B, Byte.quote, Byte.colon] =
      [Byte.quote, 0x6B, Byte.quote] ++ Byte.colon :: [] := rfl
  obtain ⟨rfl, rfl, rfl⟩ := first_until_inj hpre (by simp [Byte.quote, Byte.colon]) hu (by simp)
    (hl.symm.trans hcut)
  refine ⟨fun _ => ⟨by decide, Or.inr hholds⟩, ?_⟩
  intro _ space token tail hquoted hspaces htoken _
  have hquoted' : [] ++ Byte.quote :: [0x6B] ++ Byte.quote :: [] =
      space ++ Byte.quote :: token ++ Byte.quote :: tail := hquoted
  obtain ⟨-, rfl⟩ := quoted_inj (by simp) hspaces (by simp [Byte.quote]) htoken hquoted'
  exact ⟨by decide, by simp⟩

/-- `"k"":` is read as the key of `"k":`. -/
theorem accepts_second_quote :
    ¬ ∀ (untilEls : List UInt8) (t : ReaderTaskExtract) (s : EStream UInt8) (l : List UInt8),
      Contains s l → (∀ u ∈ untilEls, isWhitespace u = false) → Byte.quote ∉ untilEls →
        AcceptsGrammar untilEls t s l := by
  intro hevery
  have hholds := holds_ofBuffer [Byte.quote, 0x6B, Byte.quote, Byte.quote, Byte.colon]
  have hcut : [Byte.quote, 0x6B, Byte.quote, Byte.quote, Byte.colon] =
      ([] ++ Byte.quote :: [0x6B] ++ Byte.quote :: [Byte.quote]) ++ Byte.colon :: [] := rfl
  have hpre : ∀ a ∈ [] ++ Byte.quote :: [0x6B] ++ Byte.quote :: [Byte.quote], a ∉ [Byte.colon] := by
    simp [Byte.quote, Byte.colon]
  have hcolon : Byte.colon ∈ [Byte.colon] := by simp
  have htoken : Byte.quote ∉ [(0x6B : UInt8)] := by simp [Byte.quote]
  obtain ⟨-, hout⟩ := hevery [Byte.colon] (ReaderTaskExtract.mk' Byte.quote Byte.quote) _ _
    (Or.inl hholds) isWhitespace_colon (by decide)
  obtain ⟨pre, u, l', data, s', -, -, -, -, -, hread, -⟩ | ⟨-, hnone⟩ := read_extract_cases
    (ReaderTaskExtract.mk' Byte.quote Byte.quote) (Or.inl hholds) isWhitespace_colon (by decide)
  · have hnone : ∀ data l', ¬ InGrammar [Byte.colon]
        [Byte.quote, 0x6B, Byte.quote, Byte.quote, Byte.colon] data l' := by
      rintro data l' ⟨pre₁, u₁, hl₁, hpre₁, hu₁, hform⟩
      obtain ⟨rfl, rfl, rfl⟩ := first_until_inj hpre hpre₁ hcolon hu₁ (hcut.symm.trans hl₁)
      obtain ⟨hall, -⟩ | ⟨space, token, space', hquoted, hspaces, htoken', hspaces', -⟩ := hform.inv
      · exact not_space_of_quoted hall
      · obtain ⟨-, rfl⟩ := quoted_inj (by simp) hspaces htoken htoken' hquoted
        exact absurd (hspaces' Byte.quote (by simp)) (by decide)
    obtain ⟨w, hthrown⟩ := hout hnone
    rw [hread] at hthrown
    cases hthrown
  · exact hnone _ _ _ _ hcut hpre hcolon ⟨by decide, Or.inr hholds⟩
      (.quoted (by simp) htoken (by decide))

end

end WylesLibs.Stream
