import WylesLibs.Csv.Lexer

/-! Where a call of `read` puts the records it takes: over the rows that are there, cell by cell. -/
namespace WylesLibs.Csv
open Library WylesLibs.Stream Datastructures

/-- The cells of a record, and after them what the row held there before. -/
def cover (r old : Record) : Record := r ++ old.drop r.length

def coverRows : List Record → List Record → List Record
  | old, [] => old
  | old, r :: records => cover r (old.headD []) :: coverRows old.tail records

/-- The sizes of the rows that records come to. -/
def sizes : List Record → List Record → List Nat
  | _, [] => []
  | old, r :: records => (cover r (old.headD [])).length :: sizes old.tail records

/-- The record size that the first of the sizes sets. -/
def settle (recordSize : Nat) (sizes : List Nat) : Nat :=
  if recordSize = 0 then sizes.headD 0 else recordSize

/-- Every size passes the check, the first one perhaps by setting it. -/
def Fits : Nat → List Nat → Prop
  | _, [] => True
  | recordSize, size :: sizes =>
    size = settle recordSize [size] ∧ Fits (settle recordSize [size]) sizes

section
variable {r old : Record} {str : List UInt8}

@[simp] theorem cover_nil_left : cover [] old = old := by simp [cover]

@[simp] theorem cover_nil_right : cover r [] = r := by simp [cover]

theorem cover_append : cover (r ++ [str]) old = setElement (cover r old) r.length str := by
  unfold cover setElement
  obtain hlt | hge := Nat.lt_or_ge r.length old.length
  · have hdrop := List.drop_eq_getElem_cons hlt
    have hlen : r.length < (r ++ old.drop r.length).length := by simp; omega
    rw [if_pos hlen, List.set_append_right _ _ le_rfl, hdrop, Nat.sub_self, List.set_cons_zero,
      List.length_append, List.length_singleton, List.append_assoc, List.singleton_append]
  · have hdrop : old.drop r.length = [] := List.drop_eq_nil_of_le hge
    have hdrop' : old.drop (r ++ [str]).length = [] := List.drop_eq_nil_of_le (by simp; omega)
    rw [hdrop, hdrop']
    simp

end

/-- The pointers that lead to the rows of a batch, the first of them row `k`, are null. -/
def Viewed (views : Views) (k : Nat) (b : Batch) : Prop :=
  ∀ i < b.rows.length, views.null false (k + i) = true

/-- The rows of a call: those of the records that are done, then those that were there before,
with the cells of the pending record over the first of them. -/
structure Stands (done old : List Record) (pending : Option Record) (s : Reading) : Prop where
  rows : s.csv.rows = done ++ coverRows old pending.toList
  rI : s.rI = done.length
  fI : s.fI = (pending.getD []).length
  seen : pending ≠ none → s.csv.views.null false done.length = true

namespace Reading
variable (s : Reading)

def lexer : Lexer := ⟨s.csv.io, s.quoted, s.currentStr⟩

def withLexer (l : Lexer) : Reading :=
  { s with csv := { s.csv with io := l.io }, quoted := l.quoted, currentStr := l.currentStr }

def withRows (rows : List Record) : Reading := { s with csv := { s.csv with rows := rows } }

/-- With a pending record in its row. -/
def filled (done old : List Record) (r : Record) : Reading :=
  { s.withRows (done ++ cover r (old.headD []) :: old.tail) with fI := r.length }

/-- With the pending record ended. -/
def ended (done old : List Record) (r : Record) : Reading :=
  { s.filled done old r with
    csv := { (s.filled done old r).csv with
      recordSize := settle s.csv.recordSize [(cover r (old.headD [])).length] } }

end Reading

section
variable {done old : List Record} {pending : Option Record} {s : Reading} {b : UInt8}

theorem Stands.record (h : Stands done old pending s) :
    Csv.record false s = cover (pending.getD []) (old.headD []) := by
  have hrow : Csv.record false s = element s.csv.rows s.rI [] := rfl
  rw [hrow, h.rows, h.rI]
  cases pending with
  | none => cases old <;> simp [element, coverRows]
  | some r => simp [element, coverRows]

theorem Stands.setRecord (h : Stands done old pending s) (r : Record) :
    Csv.setRecord false s r = s.withRows (done ++ r :: old.tail) := by
  have hset : Csv.setRecord false s r = s.withRows (setElement s.csv.rows s.rI r) := rfl
  rw [hset, h.rows, h.rI]
  congr 1
  cases pending with
  | none => cases old <;> simp [setElement, coverRows]
  | some r' => simp [setElement, coverRows]

theorem Stands.filled (h : Stands done old pending s)
    (hseen : s.csv.views.null false done.length = true) (r : Record) :
    Stands done old (some r) (s.filled done old r) where
  rows := rfl
  rI := h.rI
  fI := rfl
  seen _ := hseen

theorem Stands.ended (h : Stands done old pending s) (r : Record) :
    Stands (done ++ [cover r (old.headD [])]) old.tail none
      { s.ended done old r with rI := s.rI + 1, fI := 0 } where
  rows := by simp [Reading.ended, Reading.filled, Reading.withRows, coverRows]
  rI := by simp [h.rI]
  fI := rfl
  seen hpending := absurd rfl hpending

theorem Stands.filled_pending (h : Stands done old pending s) :
    s.filled done old (pending.getD []) =
      s.withRows (done ++ cover (pending.getD []) (old.headD []) :: old.tail) := by
  rw [Reading.filled, ← h.fI]
  rfl

/-- The row of the record is there once it is looked up. -/
theorem Stands.touch (h : Stands done old pending s)
    (hseen : s.csv.views.null false done.length = true) :
    lookUp false s = (.ok (), s.filled done old (pending.getD [])) := by
  rw [lookUp, h.rI, if_pos hseen, h.record, h.setRecord, h.filled_pending]

theorem handleFieldDelimeter_undef (h : Stands done old pending s)
    (hseen : s.csv.views.null false done.length ≠ true) :
    handleFieldDelimeter b false s = (.undef, s) := by
  have hlook : lookUp false s = (.undef, s) := by rw [lookUp, h.rI, if_neg hseen]
  exact Call.bind_of_undef hlook

theorem handleFieldDelimeter_taken (h : Stands done old pending s)
    (hseen : s.csv.views.null false done.length = true)
    (hb : isDelimeter s.csv.separator b = false) :
    handleFieldDelimeter b false s = (.ok false, s.filled done old (pending.getD [])) := by
  have hseparator : (s.filled done old (pending.getD [])).csv.separator = s.csv.separator := rfl
  rw [handleFieldDelimeter, Call.bind_of_ok (h.touch hseen), Call.bind_of_ok (Call.view_apply _ _)]
  simp only [hseparator, hb, Bool.false_eq_true, if_false, Call.pure_apply]

/-- The cell goes to the end of the pending record. -/
theorem Stands.putField (h : Stands done old pending s)
    (hseen : s.csv.views.null false done.length = true) :
    Csv.putField false (s.filled done old (pending.getD [])) =
      { s.filled done old (pending.getD [] ++ [s.currentStr]) with currentStr := [] } := by
  have hfilled := h.filled hseen (pending.getD [])
  have hstr : (s.filled done old (pending.getD [])).currentStr = s.currentStr := rfl
  rw [Csv.putField, hfilled.record, hfilled.setRecord, hfilled.fI, Option.getD_some, hstr,
    ← cover_append]
  simp [Reading.filled, Reading.withRows]

theorem handleFieldDelimeter_field (h : Stands done old pending s)
    (hseen : s.csv.views.null false done.length = true)
    (hb : isDelimeter s.csv.separator b = true) (hne : b ≠ Byte.newline) :
    handleFieldDelimeter b false s =
      (.ok true, { s.filled done old (pending.getD [] ++ [s.currentStr]) with currentStr := [] }) := by
  have hseparator : (s.filled done old (pending.getD [])).csv.separator = s.csv.separator := rfl
  rw [handleFieldDelimeter, Call.bind_of_ok (h.touch hseen), Call.bind_of_ok (Call.view_apply _ _)]
  simp only [hseparator, hb, if_true]
  rw [Call.bind_of_ok (Call.modify_apply _ _), h.putField hseen]
  simp only [hne, if_false, Call.pure_apply]

theorem updateAndCheckRecordSize_eq (c : CSV) {size : Nat} (hsize : size ≠ 0) :
    updateAndCheckRecordSize size c =
      (if size = settle c.recordSize [size] then .ok () else .thrown "Invalid record size.",
        { c with recordSize := settle c.recordSize [size] }) := by
  unfold updateAndCheckRecordSize settle
  rw [Call.bind_of_ok (Call.modify_apply _ _), Call.bind_of_ok (Call.view_apply _ _)]
  obtain ⟨io, recordSize, separator, rows, header, views⟩ := c
  by_cases hzero : recordSize = 0
  · subst hzero
    simp [Ne.symm hsize]
  · have hzero' : ¬ 0 = recordSize := fun h => hzero h.symm
    have hsize' : ¬ 0 = size := fun h => hsize h.symm
    by_cases heq : recordSize = size
    · subst heq
      simp [hzero']
    · have heq' : ¬ size = recordSize := fun h => heq h.symm
      simp [hzero, hzero', hsize', heq, heq']

theorem handleFieldDelimeter_last (h : Stands done old pending s)
    (hseen : s.csv.views.null false done.length = true) :
    let r := pending.getD [] ++ [s.currentStr]
    let size := (cover r (old.headD [])).length
    handleFieldDelimeter Byte.newline false s =
      if size = settle s.csv.recordSize [size] then
        (.ok true, { s.ended done old r with currentStr := [], rI := s.rI + 1, fI := 0 })
      else
        (.thrown "Invalid record size.", { s.ended done old r with currentStr := [] }) := by
  intro r size
  have hseparator : (s.filled done old (pending.getD [])).csv.separator = s.csv.separator := rfl
  have hnewline : isDelimeter s.csv.separator Byte.newline = true := by simp [isDelimeter]
  have hsize : size ≠ 0 := by simp [size, cover, r]
  have hrecord : record false { s.filled done old r with currentStr := [] } =
      cover r (old.headD []) := (h.filled hseen r).record
  have hcheck : processRecord false { s.filled done old r with currentStr := [] } =
      (if size = settle s.csv.recordSize [size] then .ok () else .thrown "Invalid record size.",
        { s.ended done old r with currentStr := [] }) := by
    rw [processRecord, hrecord, onReader, updateAndCheckRecordSize_eq _ hsize]
    rfl
  rw [handleFieldDelimeter, Call.bind_of_ok (h.touch hseen), Call.bind_of_ok (Call.view_apply _ _)]
  simp only [hseparator, hnewline, if_true]
  rw [Call.bind_of_ok (Call.modify_apply _ _), h.putField hseen]
  split
  · rename_i hfits
    rw [if_pos hfits] at hcheck
    rw [Call.bind_of_ok hcheck]
    rfl
  · rename_i hfits
    rw [if_neg hfits] at hcheck
    exact Call.bind_of_thrown hcheck

/-- What `handleQuotes` does is what the lexer does with its own bytes. -/
theorem handleQuotes_eq (s : Reading) (hb : b ≠ eofByte) :
    (∃ l, handleQuotes b s = (.ok true, s.withLexer l) ∧
      lex s.csv.separator ⟨b :: s.csv.io, s.quoted, s.currentStr⟩ = (.skipped, l)) ∨
    (∃ l, handleQuotes b s = (.ok false, s.withLexer l) ∧
      lex s.csv.separator ⟨b :: s.csv.io, s.quoted, s.currentStr⟩ = deliver s.csv.separator b l) ∨
    ∃ w, handleQuotes b s = (.thrown w, s) ∧
      lex s.csv.separator ⟨b :: s.csv.io, s.quoted, s.currentStr⟩ = (.failed w, s.lexer) := by
  obtain ⟨⟨io, recordSize, separator, rows, header, views⟩, quoted, currentStr, rI, fI⟩ := s
  simp only [handleQuotes, lex, hb, if_false, Reading.withLexer, Reading.lexer]
  cases quoted with
  | false =>
    simp only [if_true]
    by_cases hquote : b = Byte.quote
    · by_cases hlen : currentStr.length = 0
      · exact Or.inl ⟨⟨io, true, currentStr⟩, by simp [hquote, hlen]⟩
      · exact Or.inr (Or.inr
          ⟨"Quoted string cannot be preceded by a non-delimiting character.", by simp [hquote, hlen]⟩)
    · by_cases hreturn : b = Byte.carriageReturn
      · subst hreturn
        exact Or.inl ⟨⟨io, false, currentStr⟩, by simp only [hquote, if_false]; simp⟩
      · exact Or.inr (Or.inl ⟨⟨io, false, currentStr⟩, by simp [hquote, hreturn]⟩)
  | true =>
    simp only [Bool.true_eq_false, if_false]
    by_cases hquote : b = Byte.quote
    · simp only [hquote, if_true]
      cases io with
      | nil => exact Or.inr (Or.inr ⟨_, rfl, rfl⟩)
      | cons peeked io =>
        by_cases hpeeked : peeked = Byte.quote
        · exact Or.inr (Or.inl ⟨⟨io, true, currentStr⟩, by simp [hpeeked]⟩)
        · by_cases hends : isDelimeter separator peeked = true
          · exact Or.inl ⟨⟨peeked :: io, false, currentStr⟩, by simp [hpeeked, hends]⟩
          · exact Or.inr (Or.inr
              ⟨"Quoted string cannot be followed by a non-delimiting character.",
                by simp [hpeeked, hends]⟩)
    · exact Or.inr (Or.inl ⟨⟨io, true, currentStr⟩, by simp [hquote]⟩)

end

/-- What comes of a call that takes `b`, the rows before `old` being done with. It does not return
past a pointer that is not null. -/
structure Stored (done old : List Record) (sep : UInt8) (size : Nat) (views : Views) (b : Batch)
    (r : Outcome Unit × Reading) : Prop where
  separator : r.2.csv.separator = sep
  viewed : r.1 = .ok () → Viewed views done.length b
  recordSize : Viewed views done.length b → r.2.csv.recordSize = settle size (sizes old b.records)
  fits : Viewed views done.length b → Fits size (sizes old b.records) → r.1 = b.ending ∧
    r.2.csv.rows = done ++ coverRows old b.rows ∧ r.2.csv.io = b.rest
  misfits : Viewed views done.length b → ¬ Fits size (sizes old b.records) →
    r.1 = .thrown "Invalid record size."

section
variable {done old : List Record} {pending : Option Record} {s : Reading} {b : UInt8}
  {o : Outcome Unit} {io : List UInt8}

@[simp] theorem settle_nil (recordSize : Nat) : settle recordSize [] = recordSize := by
  unfold settle
  split
  · rename_i h
    exact h.symm
  · rfl

theorem viewed_cons {views : Views} {k : Nat} {r : Record} {b : Batch} :
    Viewed views k { b with records := r :: b.records } ↔
      views.null false k = true ∧ Viewed views (k + 1) b := by
  have hrows : Batch.rows { b with records := r :: b.records } = r :: b.rows := rfl
  rw [Viewed, Viewed, hrows, List.length_cons, Nat.forall_lt_succ_left]
  simp only [Nat.add_zero, Nat.add_assoc, Nat.add_comm 1]

theorem Stands.viewed {ending : Outcome Unit} (h : Stands done old pending s) :
    Viewed s.csv.views done.length ⟨[], pending, ending, io⟩ := by
  intro i hi
  cases pending with
  | none => simp [Batch.rows] at hi
  | some r =>
    obtain rfl : i = 0 := by simpa [Batch.rows] using hi
    exact h.seen (by simp)

/-- No record was ended. -/
theorem Stored.idle (h : Stands done old pending s) : Stored done old s.csv.separator
    s.csv.recordSize s.csv.views ⟨[], pending, o, s.csv.io⟩ (o, s) where
  separator := rfl
  viewed _ := h.viewed
  recordSize _ := (settle_nil _).symm
  fits _ _ := ⟨rfl, h.rows, rfl⟩
  misfits _ h := absurd trivial h

/-- The first row of the batch was not reached. -/
theorem Stored.undef {sep : UInt8} {size : Nat} {views : Views} {b : Batch}
    (hseparator : s.csv.separator = sep) (hb : b.rows ≠ [])
    (hseen : views.null false done.length ≠ true) :
    Stored done old sep size views b (.undef, s) := by
  have hnot : ¬ Viewed views done.length b := fun h => hseen (h 0 (List.length_pos_of_ne_nil hb))
  exact {
    separator := hseparator
    viewed := nofun
    recordSize := fun h => absurd h hnot
    fits := fun h => absurd h hnot
    misfits := fun h => absurd h hnot }

theorem settle_cons {size x : Nat} (xs : List Nat) (hx : x ≠ 0) :
    settle (settle size [x]) xs = settle size (x :: xs) := by
  unfold settle
  by_cases hsize : size = 0 <;> simp [hsize, hx]

theorem length_cover_append_ne_zero (r o : Record) (str : List UInt8) :
    (cover (r ++ [str]) o).length ≠ 0 := by
  simp [cover]

/-- A record that fits, and the rest of the call. -/
theorem Stored.cons {r o : Record} {str : List UInt8} {size : Nat} {sep : UInt8} {views : Views}
    {b : Batch} {res : Outcome Unit × Reading} (ho : o = old.headD [])
    (hseen : views.null false done.length = true)
    (hfits : (cover (r ++ [str]) o).length = settle size [(cover (r ++ [str]) o).length])
    (h : Stored (done ++ [cover (r ++ [str]) o]) old.tail sep
      (settle size [(cover (r ++ [str]) o).length]) views b res) :
    Stored done old sep size views { b with records := (r ++ [str]) :: b.records } res := by
  subst ho
  have hviewed : Viewed views done.length { b with records := (r ++ [str]) :: b.records } ↔
      Viewed views (done ++ [cover (r ++ [str]) (old.headD [])]).length b := by
    rw [viewed_cons, List.length_append, List.length_singleton, and_iff_right hseen]
  exact {
    separator := h.separator
    viewed := fun hok => hviewed.mpr (h.viewed hok)
    recordSize := fun hall => (h.recordSize (hviewed.mp hall)).trans
      (settle_cons _ (length_cover_append_ne_zero r _ str))
    fits := fun hall hsizes => by
      obtain ⟨hending, hrows, hrest⟩ := h.fits (hviewed.mp hall) hsizes.2
      exact ⟨hending, by simpa [coverRows, Batch.rows] using hrows, hrest⟩
    misfits := fun hall hsizes =>
      h.misfits (hviewed.mp hall) fun hrest => hsizes ⟨hfits, hrest⟩ }

/-- A record that does not fit. -/
theorem Stored.misfit {r : Record} {size : Nat} {sep : UInt8} {views : Views} {b : Batch}
    {res : Outcome Unit × Reading}
    (hmisfits : (cover r (old.headD [])).length ≠ settle size [(cover r (old.headD [])).length])
    (houtcome : res.1 = .thrown "Invalid record size.") (hseparator : res.2.csv.separator = sep)
    (hsize : res.2.csv.recordSize = settle size [(cover r (old.headD [])).length]) :
    Stored done old sep size views { b with records := r :: b.records } res where
  separator := hseparator
  viewed hok := nomatch houtcome.symm.trans hok
  recordSize _ := hsize
  fits _ hall := absurd hall.1 hmisfits
  misfits _ _ := houtcome

/-- The string that is gathered is no matter. -/
theorem Stands.withStr (h : Stands done old pending s) (str : List UInt8) :
    Stands done old pending { s with currentStr := str } := ⟨h.rows, h.rI, h.fI, h.seen⟩

theorem Stands.withLexer (h : Stands done old pending s) (l : Lexer) :
    Stands done old pending (s.withLexer l) := ⟨h.rows, h.rI, h.fI, h.seen⟩

/-- The rows are those of the batch after a loop of so many turns, if that is more than there is to
read. -/
def LoopStores (steps : Nat) : Prop :=
  ∀ ⦃done old : List Record⦄ ⦃pending : Option Record⦄ ⦃s : Reading⦄ (n : Nat),
    Stands done old pending s → s.csv.io.length < steps →
      Stored done old s.csv.separator s.csv.recordSize s.csv.views
        (batchFrom s.csv.separator n s.lexer pending) (readLoop (done.length + n) false steps s)

/-- A turn with a byte that is delivered: it goes to the string, or ends a field, or a record. -/
theorem LoopStores.delivered {steps : Nat} (ih : LoopStores steps) (n : Nat) {l : Lexer}
    (h : Stands done old pending s) (hlen : s.csv.io.length < steps)
    (hlex : lex s.csv.separator l = deliver s.csv.separator b s.lexer) :
    Stored done old s.csv.separator s.csv.recordSize s.csv.views
      (batchFrom s.csv.separator (n + 1) l pending)
      ((do
        if ← handleFieldDelimeter b false then
          readLoop (done.length + (n + 1)) false steps
        else
          Call.modify fun s => { s with currentStr := s.currentStr ++ [b] }
          readLoop (done.length + (n + 1)) false steps : Call Reading Unit) s) := by
  by_cases hseen : s.csv.views.null false done.length = true
  swap
  · rw [Call.bind_of_undef (handleFieldDelimeter_undef h hseen)]
    exact Stored.undef rfl (rows_ne_nil_of_deliver hlex) hseen
  rw [batchFrom_succ, hlex]
  cases hdelimeter : isDelimeter s.csv.separator b with
  | false =>
    have hdeliver : deliver s.csv.separator b s.lexer =
        (.taken, { s.lexer with currentStr := s.currentStr ++ [b] }) := by
      simp [deliver, hdelimeter, Reading.lexer]
    rw [hdeliver, Call.bind_of_ok (handleFieldDelimeter_taken h hseen hdelimeter)]
    simp only [Bool.false_eq_true, if_false]
    rw [Call.bind_of_ok (Call.modify_apply _ _)]
    exact ih _ ((h.filled hseen _).withStr _) hlen
  | true =>
    by_cases hnewline : b = Byte.newline
    · subst hnewline
      have hdeliver : deliver s.csv.separator Byte.newline s.lexer =
          (.last s.currentStr, { s.lexer with currentStr := [] }) := by
        simp [deliver, hdelimeter, Reading.lexer]
      rw [hdeliver]
      have hfield := handleFieldDelimeter_last h hseen
      simp only at hfield
      split at hfield
      · rename_i hfits
        rw [Call.bind_of_ok hfield]
        simp only [if_true]
        refine Stored.cons rfl hseen hfits ?_
        have hrec := ih n ((h.ended (pending.getD [] ++ [s.currentStr])).withStr []) hlen
        rw [List.length_append, List.length_singleton, Nat.add_assoc, Nat.add_comm 1] at hrec
        exact hrec
      · rename_i hmisfits
        rw [Call.bind_of_thrown hfield]
        exact Stored.misfit hmisfits rfl rfl rfl
    · have hdeliver : deliver s.csv.separator b s.lexer =
          (.field s.currentStr, { s.lexer with currentStr := [] }) := by
        simp [deliver, hdelimeter, hnewline, Reading.lexer]
      rw [hdeliver, Call.bind_of_ok (handleFieldDelimeter_field h hseen hdelimeter hnewline)]
      simp only [if_true]
      exact ih _ ((h.filled hseen _).withStr _) hlen

/-- A turn of the loop, by what the lexer makes of the bytes that it takes. -/
theorem LoopStores.succ {steps : Nat} (ih : LoopStores steps) : LoopStores (steps + 1) := by
  intro done old pending s n h hsteps
  rw [readLoop, Call.bind_of_ok (Call.view_apply _ _)]
  cases n with
  | zero =>
    rw [batchFrom_zero, if_neg (by simp [h.rI])]
    exact Stored.idle h
  | succ n =>
    rw [if_pos (by simp [h.rI])]
    cases hio : s.csv.io with
    | nil =>
      have hget : get s = (.thrown endOfData, s) := by simp [get, hio]
      have hlex : lex s.csv.separator s.lexer = (.failed endOfData, s.lexer) := by
        simp [lex, Reading.lexer, hio]
      rw [Call.bind_of_thrown hget, batchFrom_succ, hlex]
      exact Stored.idle h
    | cons b io =>
      have hget : get s = (.ok b, s.withLexer ⟨io, s.quoted, s.currentStr⟩) := by
        simp [get, hio, Reading.withLexer]
      have hlexer : s.lexer = ⟨b :: io, s.quoted, s.currentStr⟩ := by rw [Reading.lexer, hio]
      have hstands := h.withLexer ⟨io, s.quoted, s.currentStr⟩
      have hless := @lex_io s.csv.separator ⟨b :: io, s.quoted, s.currentStr⟩ (by simp)
      simp only [hio, List.length_cons] at hsteps hless
      rw [Call.bind_of_ok hget, hlexer]
      by_cases hb : b = eofByte
      · have hlex : lex s.csv.separator ⟨b :: io, s.quoted, s.currentStr⟩ =
            (.ended, ⟨io, s.quoted, s.currentStr⟩) := by simp [lex, hb]
        rw [batchFrom_succ, hlex, if_pos hb]
        exact Stored.idle hstands
      · rw [if_neg hb]
        obtain ⟨l, hquotes, hlex⟩ | ⟨l, hquotes, hlex⟩ | ⟨w, hquotes, hlex⟩ :=
          handleQuotes_eq (s.withLexer ⟨io, s.quoted, s.currentStr⟩) hb
        · have hlex : lex s.csv.separator ⟨b :: io, s.quoted, s.currentStr⟩ = (.skipped, l) := hlex
          rw [hlex] at hless
          have hlen : l.io.length < steps := by simp only at hless; omega
          rw [batchFrom_succ, hlex, Call.bind_of_ok hquotes]
          exact ih _ (hstands.withLexer l) hlen
        · have hlex : lex s.csv.separator ⟨b :: io, s.quoted, s.currentStr⟩ =
              deliver s.csv.separator b l := hlex
          rw [hlex, deliver_io] at hless
          have hlen : l.io.length < steps := by omega
          rw [Call.bind_of_ok hquotes]
          simp only [Bool.false_eq_true, if_false]
          exact ih.delivered n (hstands.withLexer l) hlen hlex
        · have hlex : lex s.csv.separator ⟨b :: io, s.quoted, s.currentStr⟩ =
              (.failed w, (s.withLexer ⟨io, s.quoted, s.currentStr⟩).lexer) := hlex
          rw [batchFrom_succ, hlex, Call.bind_of_thrown hquotes]
          exact Stored.idle hstands

theorem readLoop_stored (steps : Nat) : LoopStores steps := by
  induction steps with
  | zero => exact fun _ _ _ _ _ _ hsteps => absurd hsteps (Nat.not_lt_zero _)
  | succ steps ih => exact ih.succ

end
end WylesLibs.Csv
