import WylesLibs.EStream.Reads

/-! Descriptors that `poll` reports as readable at the end of their data too, as it does for files
and for connections that the other side has closed. -/
namespace WylesLibs.Stream
open Library
variable {α γ κ ρ θ : Type}

def endOfFile : String := "Read error."

/-- What is left of such a descriptor. -/
structure FileTail (α : Type) where
  ahead : List α

namespace FileTail

instance : EStreamI (FileTail α) α where
  get := fun t =>
    match t.ahead with
    | [] => .thrown endOfFile
    | a :: l => .ok (a, ⟨l⟩)
  peek := fun t =>
    match t.ahead with
    | [] => .thrown endOfFile
    | a :: _ => .ok (a, t)
  good := fun t => .ok (true, t)

section
variable (a : α) (l : List α)

@[simp] theorem get_cons : (get : Prog (FileTail α) α) ⟨a :: l⟩ = .ok (a, ⟨l⟩) := rfl
@[simp] theorem peek_nil : (peek : Prog (FileTail α) α) ⟨[]⟩ = .thrown endOfFile := rfl
@[simp] theorem peek_cons : (peek : Prog (FileTail α) α) ⟨a :: l⟩ = .ok (a, ⟨a :: l⟩) := rfl
@[simp] theorem good_eq : (good : Prog (FileTail α) Bool) ⟨l⟩ = .ok (true, ⟨l⟩) := rfl

end

section
variable [LoopCriteriaI γ α] [Collector κ α ρ] [StreamTask θ α]

/-- The loop has always looked behind the last element that it takes. -/
theorem collectLoop_iff {n : Nat} {el : α} {criteria : γ} {task : Option θ} {collector : κ}
    {l l' : List α} {p : Option θ × κ} (hl : l ≠ []) :
    collectLoop n el criteria task collector (⟨l⟩ : FileTail α) = .ok (p, ⟨l'⟩) ↔
      collectLoop n el criteria task collector l = .ok (p, l') ∧ l' ≠ [] := by
  induction n generalizing el criteria task collector l with
  | zero => simp [collectLoop]
  | succ n ih =>
    obtain ⟨a, l, rfl⟩ := List.exists_cons_of_ne_nil hl
    simp only [collectLoop, Prog.bind_apply, Prog.lift_apply]
    cases hnext : LoopCriteriaI.nextState criteria el with
    | thrown w => simp
    | undef => simp
    | timeout => simp
    | ok r =>
      simp only [Outcome.bind_ok]
      cases hgood : r.1.isGood with
      | false =>
        simp only [Bool.false_eq_true, if_false, Prog.pure_apply]
        constructor
        · intro h
          cases h
          exact ⟨rfl, by simp⟩
        · intro hcase
          obtain ⟨h, _⟩ := hcase
          cases h
          rfl
      | true =>
        simp only [if_true, Prog.bind_apply, Prog.lift_apply, get_cons, get_list_cons,
          Outcome.bind_ok]
        cases hperf : performEl task el r.2 collector with
        | thrown w => simp
        | undef => simp
        | timeout => simp
        | ok q =>
          simp only [Outcome.bind_ok, good_eq, good_list]
          cases l with
          | nil =>
            by_cases hlast : (LoopCriteriaI.state q.2.1).isAtLast = true
            · simp [hlast]
            · simp [hlast]
          | cons b l => simpa using ih (List.cons_ne_nil b l)

/-- So does the loop settle if it settles on the same elements as a list. -/
theorem settled_collectLoop {n : Nat} {el : α} {criteria : γ} {task : Option θ} {collector : κ}
    {l : List α} (hl : l ≠ []) (h : (collectLoop n el criteria task collector l).Settled) :
    (collectLoop n el criteria task collector (⟨l⟩ : FileTail α)).Settled := by
  induction n generalizing el criteria task collector l with
  | zero => exact absurd rfl h.2
  | succ n ih =>
    obtain ⟨a, l, rfl⟩ := List.exists_cons_of_ne_nil hl
    simp only [collectLoop, Prog.bind_apply, Prog.lift_apply] at h ⊢
    cases hnext : LoopCriteriaI.nextState criteria el with
    | thrown w => exact Outcome.settled_thrown w
    | undef => exact absurd (by simp [hnext]) h.1
    | timeout => exact absurd (by simp [hnext]) h.2
    | ok r =>
      simp only [hnext, Outcome.bind_ok] at h ⊢
      cases hgood : r.1.isGood with
      | false => exact Outcome.settled_ok _
      | true =>
        simp only [hgood, if_true, Prog.bind_apply, Prog.lift_apply, get_cons, get_list_cons,
          Outcome.bind_ok] at h ⊢
        cases hperf : performEl task el r.2 collector with
        | thrown w => exact Outcome.settled_thrown w
        | undef => exact absurd (by simp [hperf]) h.1
        | timeout => exact absurd (by simp [hperf]) h.2
        | ok q =>
          simp only [hperf, Outcome.bind_ok, good_eq, good_list] at h ⊢
          cases l with
          | nil =>
            by_cases hlast : (LoopCriteriaI.state q.2.1).isAtLast = true
            · simp [hlast]
            · simp [hlast]
          | cons b l => simpa using ih (List.cons_ne_nil b l) (by simpa using h)

theorem streamCollect_iff {criteria : γ} {task : Option θ} {collector : κ} {l l' : List α}
    {p : ρ × Option θ} :
    streamCollect criteria task collector (⟨l⟩ : FileTail α) = .ok (p, ⟨l'⟩) ↔
      streamCollect criteria task collector l = .ok (p, l') ∧ l' ≠ [] := by
  cases l with
  | nil => simp [streamCollect]
  | cons a l =>
    simp only [streamCollect, Prog.bind_apply, peek_cons, peek_list_cons, Outcome.bind_ok,
      Outcome.bind_eq_ok, Prog.lift_apply, Prog.pure_apply]
    constructor
    · intro hcase
      obtain ⟨⟨q, ⟨m⟩⟩, hloop, ⟨r, t⟩, ⟨r', hflush, hr⟩, hend⟩ := hcase
      obtain ⟨hlist, hne⟩ := (collectLoop_iff (List.cons_ne_nil a l)).mp hloop
      cases hr
      cases hend
      exact ⟨⟨_, hlist, _, ⟨_, hflush, rfl⟩, rfl⟩, hne⟩
    · intro hcase
      obtain ⟨⟨⟨q, m⟩, hloop, ⟨r, t⟩, ⟨r', hflush, hr⟩, hend⟩, hne⟩ := hcase
      cases hr
      cases hend
      exact ⟨_, (collectLoop_iff (List.cons_ne_nil a l)).mpr ⟨hloop, hne⟩, _,
        ⟨_, hflush, rfl⟩, rfl⟩

omit [LoopCriteriaI γ α] [Collector κ α ρ] in
theorem read_iff [DecidableEq α] {untilEls : List α} {operation : Option θ} {inclusive : Bool}
    {l l' data : List α} :
    read untilEls operation inclusive (⟨l⟩ : FileTail α) = .ok (data, ⟨l'⟩) ↔
      read untilEls operation inclusive l = .ok (data, l') ∧ l' ≠ [] := by
  simp only [read, Prog.bind_ok_iff, Prog.pure_apply]
  constructor
  · intro hcase
    obtain ⟨p, t, hc, hp⟩ := hcase
    cases hp
    obtain ⟨hlist, hne⟩ := streamCollect_iff.mp hc
    exact ⟨⟨_, _, hlist, rfl⟩, hne⟩
  · intro hcase
    obtain ⟨⟨p, t, hc, hp⟩, hne⟩ := hcase
    cases hp
    exact ⟨_, _, streamCollect_iff.mpr ⟨hc, hne⟩, rfl⟩

end
end FileTail

namespace EStream
variable {s t : EStream α}

/-- The same stream over a descriptor that is not readable at its end. -/
def quiet (s : EStream α) : EStream α :=
  { s with fd := s.fd.map fun d => { d with readableAtEof := false } }

theorem saveUngot_quiet (s : EStream α) :
    s.quiet.saveUngot = s.saveUngot.bind fun t => .ok t.quiet := by
  by_cases hc : s.cursor = 0
  · simp [saveUngot, quiet, hc]
  · cases h : s.buffer[s.cursor - 1]? with
    | none => simp [saveUngot, quiet, hc, h]
    | some el => simp [saveUngot, quiet, hc, h]

theorem fillBuffer_quiet (s : EStream α) :
    fillBuffer s.quiet = (fillBuffer s).bind fun r => .ok ((), r.2.quiet) := by
  cases hfd : s.fd with
  | none => simp [fillBuffer, quiet, hfd]
  | some d =>
    obtain ⟨chunks, e⟩ := d
    cases chunks with
    | nil => simp [fillBuffer, quiet, hfd]
    | cons chunk chunks =>
      by_cases h : chunk = [] ∨ s.bufferSize < chunk.length
      · simp [fillBuffer, quiet, hfd, h]
      · simp [fillBuffer, quiet, hfd, h]

theorem refill_quiet (s : EStream α) :
    refill s.quiet = (refill s).bind fun r => .ok ((), r.2.quiet) := by
  have hpast : s.quiet.readPastBuffer = s.readPastBuffer := rfl
  rw [refill, refill, hpast]
  split
  · rw [saveUngot_quiet]
    cases s.saveUngot with
    | ok t => exact fillBuffer_quiet t
    | thrown w => rfl
    | undef => rfl
    | timeout => rfl
  · rfl

theorem saveUngot_fd (h : s.saveUngot = .ok t) : t.fd = s.fd := by
  unfold saveUngot at h
  split at h
  · split at h
    · cases h
    · cases h
      rfl
  · cases h
    rfl

/-- A refill leaves the descriptor as readable at its end as it was. -/
theorem refill_readable {chunks : List (List α)} {e : Bool} (hfd : s.fd = some ⟨chunks, e⟩)
    (h : refill s = .ok ((), t)) : ∃ chunks', t.fd = some ⟨chunks', e⟩ := by
  rw [refill] at h
  split at h
  · obtain ⟨u, hu, hfill⟩ := Outcome.bind_eq_ok.mp h
    have hufd := (saveUngot_fd hu).trans hfd
    cases chunks with
    | nil => simp [fillBuffer, hufd] at hfill
    | cons c cs =>
      by_cases hc : c = [] ∨ u.bufferSize < c.length
      · simp [fillBuffer, hufd, hc] at hfill
      · simp only [fillBuffer, hufd, List.length_eq_zero_iff, hc, if_false] at hfill
        cases hfill
        exact ⟨cs, rfl⟩
  · cases h
    exact ⟨chunks, hfd⟩

/-- `l` is left, and the end of the data does not make `poll` say that there is nothing to read. -/
structure HoldsFile (s : EStream α) (t : FileTail α) : Prop where
  wellFormed : s.quiet.WellFormed
  remaining : s.remaining = t.ahead
  badbit : s.badbit = false
  fd : ∃ chunks, s.fd = some ⟨chunks, true⟩

/-- A new stream over such a descriptor. -/
theorem holdsFile_ofFd [Inhabited α] {chunks : List (List α)} {bs : Nat} (hbs : 0 < bs)
    (hchunks : ∀ c ∈ chunks, c ≠ [] ∧ c.length ≤ bs) :
    ∃ s, ofFd ⟨chunks, true⟩ bs = .ok s ∧ s.HoldsFile ⟨chunks.flatten⟩ := by
  refine ⟨_, if_neg (Nat.not_lt.mpr hbs), ?_⟩
  exact {
    wellFormed := {
      poll := by simp [quiet]
      chunk := hchunks
      els := rfl
      cursor := Nat.le_refl 0
      ungot := by simp [quiet]
      badbit := by simp [quiet] }
    remaining := by simp [EStream.remaining, unread]
    badbit := rfl
    fd := ⟨chunks, rfl⟩ }

theorem HoldsFile.good {l : FileTail α} (h : s.HoldsFile l) : good s = .ok (true, s) := by
  obtain ⟨chunks, hfd⟩ := h.fd
  simp [EStream.good, h.badbit, readable, hfd, Descriptor.poll]

theorem remaining_quiet (s : EStream α) : s.quiet.remaining = s.remaining := by
  cases hfd : s.fd with
  | none => simp [EStream.remaining, quiet, unread, hfd]
  | some d => simp [EStream.remaining, quiet, unread, hfd]

theorem HoldsFile.peek_nil (h : s.HoldsFile ⟨[]⟩) : peek s = .thrown endOfFile := by
  obtain ⟨chunks, hfd⟩ := h.fd
  have hrem : s.quiet.remaining = [] := (remaining_quiet s).trans h.remaining
  obtain ⟨hpast, hquiet⟩ := (past_and_unreadable_iff h.wellFormed).mpr hrem
  have hchunks : chunks = [] := by
    simpa [readable, quiet, hfd, Descriptor.poll] using hquiet
  have hrefill : refill s = .thrown endOfFile := by
    obtain ⟨el, hsave, -⟩ := h.wellFormed.saveUngot
    rw [saveUngot_quiet] at hsave
    obtain ⟨u, hu, -⟩ := Outcome.bind_eq_ok.mp hsave
    have hufd := (saveUngot_fd hu).trans hfd
    have hpast' : s.readPastBuffer = true := hpast
    rw [refill, if_pos hpast', hu]
    change fillBuffer u = .thrown endOfFile
    rw [fillBuffer, hufd, hchunks]
    rfl
  simp [EStream.peek, h.good, hrefill]

theorem advance_quiet (s : EStream α) : s.advance.quiet = s.quiet.advance := by
  have hsame : (s.quiet.cursor = 0 ∧ s.quiet.ungot = true) = (s.cursor = 0 ∧ s.ungot = true) := rfl
  simp only [advance, hsame]
  split
  · rfl
  · rfl

theorem advance_fd (s : EStream α) : s.advance.fd = s.fd := by
  unfold advance
  split
  · rfl
  · rfl

theorem HoldsFile.peek_cons {a : α} {l : List α} (h : s.HoldsFile ⟨a :: l⟩) :
    ∃ s', peek s = .ok (a, s') ∧ s'.HoldsFile ⟨a :: l⟩ ∧ s'.advance.HoldsFile ⟨l⟩ := by
  obtain ⟨chunks, hfd⟩ := h.fd
  have hrem : s.quiet.remaining = a :: l := (remaining_quiet s).trans h.remaining
  obtain ⟨q, hq, hwell, hqrem, hpast, -⟩ := refill_spec h.wellFormed (by simp [hrem])
  rw [refill_quiet] at hq
  obtain ⟨⟨_, t⟩, ht, heq⟩ := Outcome.bind_eq_ok.mp hq
  obtain rfl : t.quiet = q := by simpa using heq
  obtain ⟨chunks', hfd'⟩ := refill_readable hfd ht
  obtain ⟨el, hcur, hel, hadv, hbad, -⟩ := current_spec hwell hpast
  rw [hqrem, hrem] at hel
  obtain ⟨rfl, hl⟩ := List.cons.inj hel
  have hcur' : t.current = .ok a := hcur
  have hbit : t.badbit = false := hwell.badbit_of_remaining (by simp [hqrem, hrem])
  refine ⟨t, by simp [EStream.peek, h.good, ht, hcur'], ⟨hwell, ?_, hbit, chunks', hfd'⟩,
    ⟨?_, ?_, ?_, chunks', (advance_fd t).trans hfd'⟩⟩
  · exact (remaining_quiet t).symm.trans (hqrem.trans hrem)
  · rw [advance_quiet]
    exact hadv
  · rw [← remaining_quiet, advance_quiet]
    exact hl.symm
  · have hsame : t.advance.badbit = t.advance.quiet.badbit := rfl
    rw [hsame, advance_quiet]
    exact hbad

/-- Where it reports itself readable at its end, a stream stands for the tail of a file. -/
theorem file_sim : EStreamSim (HoldsFile (α := α)) where
  get := by
    rintro s ⟨l⟩ h
    change (EStream.get s).Rel _ _
    cases l with
    | nil =>
      have hget : EStream.get s = .thrown endOfFile := by simp [EStream.get, h.peek_nil]
      rw [hget]
      exact .thrown _
    | cons a l =>
      obtain ⟨s', hpeek, -, hadv⟩ := h.peek_cons
      have hget : EStream.get s = .ok (a, s'.advance) := by simp [EStream.get, hpeek]
      rw [hget]
      exact .ok hadv
  peek := by
    rintro s ⟨l⟩ h
    change (EStream.peek s).Rel _ _
    cases l with
    | nil =>
      rw [h.peek_nil]
      exact .thrown _
    | cons a l =>
      obtain ⟨s', hpeek, h', -⟩ := h.peek_cons
      rw [hpeek]
      exact .ok h'
  good := by
    rintro s l h
    change (EStream.good s).Rel _ _
    rw [h.good]
    exact .ok h

end EStream
end WylesLibs.Stream
