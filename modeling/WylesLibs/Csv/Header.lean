import WylesLibs.Csv.Batches

/-! The header of a table: it is read as a table of one row is, and the rows leave it as it is. -/
namespace WylesLibs.Csv
open Library WylesLibs.Stream Datastructures

/-- The pointers to the header as those to the rows. -/
def Views.aside (v : Views) : Views := ⟨true, v.header, fun _ => v.header⟩

/-- The header as the first row. -/
def aside (s : Reading) : Reading :=
  { s with csv := { s.csv with
    rows := s.csv.header :: s.csv.rows, header := [], views := s.csv.views.aside } }

theorem record_aside {s : Reading} (h : s.rI = 0) : record false (aside s) = record true s := by
  have hrow : record false (aside s) = element (s.csv.header :: s.csv.rows) s.rI [] := rfl
  rw [hrow, h]
  rfl

theorem setRecord_aside {s : Reading} (h : s.rI = 0) (r : Record) :
    setRecord false (aside s) r = aside (setRecord true s r) := by
  have hset : setRecord false (aside s) r =
      { s with csv := { s.csv with
        rows := setElement (s.csv.header :: s.csv.rows) s.rI r, header := [],
        views := s.csv.views.aside } } := rfl
  have hfirst : setElement (s.csv.header :: s.csv.rows) s.rI r = r :: s.csv.rows := by
    rw [h]
    rfl
  rw [hset, hfirst]
  rfl

theorem lookUp_ok {p : Bool} {s t : Reading} {u : Unit} (h : lookUp p s = (.ok u, t)) :
    setRecord p s (record p s) = t := by
  unfold lookUp at h
  split at h
  · exact congrArg Prod.snd h
  · cases h

theorem lookUp_aside {s : Reading} (h : s.rI = 0) :
    Call.Carries aside (lookUp true) (lookUp false) s := by
  have hnull : (aside s).csv.views.null false (aside s).rI = s.csv.views.null true s.rI := rfl
  rw [Call.Carries, lookUp, lookUp, hnull, record_aside h, setRecord_aside h]
  split <;> rfl

theorem putField_aside {s : Reading} (h : s.rI = 0) :
    putField false (aside s) = aside (putField true s) := by
  have hput : putField false (aside s) =
      { setRecord false (aside s) (setElement (record false (aside s)) s.fI s.currentStr) with
        fI := s.fI + 1, currentStr := [] } := rfl
  rw [hput, record_aside h, setRecord_aside h]
  rfl

theorem updateAndCheckRecordSize_frame (size : Nat) (c : CSV) :
    ∃ (o : Outcome Unit) (recordSize : Nat), ∀ rows header views,
      updateAndCheckRecordSize size { c with rows := rows, header := header, views := views } =
        (o, { c with recordSize := recordSize, rows := rows, header := header, views := views }) := by
  obtain ⟨recordSize, hsize⟩ : ∃ n, n = if 0 = c.recordSize then size else c.recordSize := ⟨_, rfl⟩
  have hset : ∀ rows header views,
      (if 0 = ({ c with rows := rows, header := header, views := views } : CSV).recordSize then
        { c with rows := rows, header := header, views := views, recordSize := size }
        else { c with rows := rows, header := header, views := views }) =
      ({ c with recordSize := recordSize, rows := rows, header := header, views := views } : CSV) := by
    intro rows header views
    rw [hsize]
    split <;> rfl
  refine ⟨if 0 = size ∨ recordSize ≠ size then .thrown "Invalid record size." else .ok (), recordSize, ?_⟩
  intro rows header views
  rw [updateAndCheckRecordSize, Call.bind_of_ok (Call.modify_apply _ _),
    Call.bind_of_ok (Call.view_apply _ _), hset]
  dsimp only [id]
  split <;> rfl

theorem processRecord_aside {s : Reading} (h : s.rI = 0) :
    Call.Carries aside (processRecord true) (processRecord false) s := by
  obtain ⟨o, recordSize, hcheck⟩ :=
    updateAndCheckRecordSize_frame (record true s).length s.csv
  have hleft : processRecord false (aside s) =
      onReader (updateAndCheckRecordSize (record false (aside s)).length) (aside s) := rfl
  have hright : processRecord true s =
      onReader (updateAndCheckRecordSize (record true s).length) s := rfl
  have hcsv : (aside s).csv = { s.csv with
      rows := s.csv.header :: s.csv.rows, header := [], views := s.csv.views.aside } := rfl
  have hself := hcheck s.csv.rows s.csv.header s.csv.views
  rw [Call.Carries, hleft, hright, record_aside h]
  simp only [onReader, hcsv, hcheck]
  rfl

theorem handleFieldDelimeter_aside (b : UInt8) {s : Reading} (h : s.rI = 0) :
    Call.Carries aside (handleFieldDelimeter b true) (handleFieldDelimeter b false) s := by
  apply Call.Carries.bind (lookUp_aside h)
  intro u t ht
  obtain rfl := lookUp_ok ht
  have hrI : (setRecord true s (record true s)).rI = 0 := h
  generalize setRecord true s (record true s) = t at hrI ⊢
  apply Call.Carries.bind
  · rfl
  intro separator t' ht'
  obtain rfl : t = t' := congrArg Prod.snd ht'
  split
  · apply Call.Carries.bind
    · rw [Call.Carries, Call.modify_apply, Call.modify_apply, putField_aside hrI]
    intro u t' ht'
    obtain rfl : putField true t = t' := congrArg Prod.snd ht'
    have hrI' : (putField true t).rI = 0 := hrI
    generalize putField true t = t' at hrI' ⊢
    split
    · apply Call.Carries.bind (processRecord_aside hrI')
      intro u v _
      apply Call.Carries.bind
      · rfl
      · intro u v _
        rfl
    · rfl
  · rfl

theorem handleFieldDelimeter_rI {b : UInt8} {s t : Reading} {a : Bool}
    (h : handleFieldDelimeter b true s = (.ok a, t)) : t.rI ≤ s.rI + 1 := by
  have hlook : lookUp true s = (.ok (), setRecord true s (record true s)) ∨
      lookUp true s = (.undef, s) := by
    unfold lookUp
    split <;> simp
  obtain hlook | hlook := hlook
  swap
  · rw [handleFieldDelimeter, Call.bind_of_undef hlook] at h
    cases h
  rw [handleFieldDelimeter, Call.bind_of_ok hlook, Call.bind_of_ok (Call.view_apply _ _)] at h
  split at h
  · rw [Call.bind_of_ok (Call.modify_apply _ _)] at h
    split at h
    · obtain ⟨o, u, hrecord, hu⟩ : ∃ o u, processRecord true
          (putField true (setRecord true s (record true s))) = (o, u) ∧ u.rI = s.rI :=
        ⟨_, _, rfl, rfl⟩
      cases o with
      | ok v =>
        rw [Call.bind_of_ok hrecord] at h
        obtain rfl : { u with rI := u.rI + 1, fI := 0 } = t := congrArg Prod.snd h
        simp [hu]
      | thrown w =>
        rw [Call.bind_of_thrown hrecord] at h
        cases h
      | undef =>
        simp only [Bind.bind, hrecord] at h
        cases h
      | timeout =>
        simp only [Bind.bind, hrecord] at h
        cases h
    · obtain rfl : putField true (setRecord true s (record true s)) = t := congrArg Prod.snd h
      exact Nat.le_succ _
  · obtain rfl : setRecord true s (record true s) = t := congrArg Prod.snd h
    exact Nat.le_succ _

theorem get_aside (s : Reading) : Call.Carries aside get get s := by
  obtain ⟨⟨io, recordSize, separator, rows, header, views⟩, quoted, currentStr, rI, fI⟩ := s
  cases io <;> rfl

theorem handleQuotes_aside (b : UInt8) (s : Reading) :
    Call.Carries aside (handleQuotes b) (handleQuotes b) s ∧ (handleQuotes b s).2.rI = s.rI := by
  obtain ⟨⟨io, recordSize, separator, rows, header, views⟩, quoted, currentStr, rI, fI⟩ := s
  unfold Call.Carries handleQuotes aside
  dsimp only
  cases io with
  | nil => split_ifs <;> exact ⟨rfl, rfl⟩
  | cons peeked io => dsimp only; split_ifs <;> exact ⟨rfl, rfl⟩

theorem readLoop_aside (steps : Nat) {s : Reading} (h : s.rI ≤ 1) :
    Call.Carries aside (readLoop 1 true steps) (readLoop 1 false steps) s := by
  induction steps generalizing s with
  | zero => rfl
  | succ steps ih =>
    have hlook : ∀ p s, readLoop 1 p (steps + 1) s = (if s.rI < 1 then (do
        let b ← get
        if b = eofByte then pure ()
        else if ← handleQuotes b then readLoop 1 p steps
        else if ← handleFieldDelimeter b p then readLoop 1 p steps
        else
          Call.modify fun s => { s with currentStr := s.currentStr ++ [b] }
          readLoop 1 p steps) else pure () : Call Reading Unit) s := fun _ _ => rfl
    have hrI : (aside s).rI = s.rI := rfl
    rw [Call.Carries, hlook, hlook, hrI]
    split
    · next hfirst =>
      apply Call.Carries.bind (get_aside s)
      intro b t hget
      have ht : t.rI = 0 := by
        have hsame : (get s).2.rI = s.rI := by
          unfold get
          cases s.csv.io <;> rfl
        rw [hget] at hsame
        exact hsame.trans (by omega)
      split
      · rfl
      obtain ⟨hquotes, hsame⟩ := handleQuotes_aside b t
      apply Call.Carries.bind hquotes
      intro quote u hu
      have hkept : u.rI = 0 := by
        rw [← ht, ← hsame, hu]
      split
      · exact ih (by omega)
      apply Call.Carries.bind (handleFieldDelimeter_aside b hkept)
      intro ended v hv
      have hle := handleFieldDelimeter_rI hv
      split
      · exact ih (by omega)
      · apply Call.Carries.bind
        · rfl
        · intro w x hx
          obtain rfl : { v with currentStr := v.currentStr ++ [b] } = x := congrArg Prod.snd hx
          exact ih (by dsimp only; omega)
    · rfl

/-! What a call leaves as it is: the pointers, and the header where it reads rows. -/

section
variable {α : Type} {p : Bool} {f : CSV → α} {x : α}

theorem handleFieldDelimeter_keeps (hsize : ∀ c size, f { c with recordSize := size } = f c)
    (hset : ∀ s r, f (setRecord p s r).csv = f s.csv) (b : UInt8) :
    Call.Keeps (fun s => f s.csv = x) (handleFieldDelimeter b p) := by
  apply Call.Keeps.bind
  · intro s hs
    unfold lookUp
    split
    · exact (hset s _).trans hs
    · exact hs
  intro _
  apply Call.Keeps.bind
  · exact fun s hs => hs
  intro separator
  split
  · apply Call.Keeps.bind
    · exact fun s hs => (hset s _).trans hs
    intro _
    split
    · apply Call.Keeps.bind
      · intro s hs
        obtain ⟨o, recordSize, hcheck⟩ := updateAndCheckRecordSize_frame (record p s).length s.csv
        have hself := hcheck s.csv.rows s.csv.header s.csv.views
        have hrecord : processRecord p s =
            onReader (updateAndCheckRecordSize (record p s).length) s := rfl
        rw [hrecord, onReader]
        exact (congrArg (fun r => f r.2) hself).trans ((hsize s.csv recordSize).trans hs)
      intro _
      apply Call.Keeps.bind
      · exact fun s hs => hs
      · exact fun _ s hs => hs
    · exact fun s hs => hs
  · exact fun s hs => hs

theorem get_keeps (hio : ∀ c io, f { c with io := io } = f c) :
    Call.Keeps (fun s => f s.csv = x) get := by
  intro s hs
  unfold get
  cases s.csv.io with
  | nil => exact hs
  | cons b io => exact (hio s.csv io).trans hs

theorem handleQuotes_keeps (hio : ∀ c io, f { c with io := io } = f c) (b : UInt8) :
    Call.Keeps (fun s => f s.csv = x) (handleQuotes b) := by
  intro s hs
  unfold handleQuotes
  cases s.csv.io with
  | nil => split_ifs <;> exact hs
  | cons peeked io =>
    dsimp only
    split_ifs
    all_goals first | exact hs | exact (hio s.csv io).trans hs

theorem readLoop_keeps (hio : ∀ c io, f { c with io := io } = f c)
    (hsize : ∀ c size, f { c with recordSize := size } = f c)
    (hset : ∀ s r, f (setRecord p s r).csv = f s.csv) (n steps : Nat) :
    Call.Keeps (fun s => f s.csv = x) (readLoop n p steps) := by
  induction steps with
  | zero => exact fun s hs => hs
  | succ steps ih =>
    apply Call.Keeps.bind
    · exact fun s hs => hs
    intro s
    split
    · apply Call.Keeps.bind (get_keeps hio)
      intro b
      split
      · exact fun s hs => hs
      apply Call.Keeps.bind (handleQuotes_keeps hio b)
      intro quote
      split
      · exact ih
      apply Call.Keeps.bind (handleFieldDelimeter_keeps hsize hset b)
      intro ended
      split
      · exact ih
      apply Call.Keeps.bind
      · exact fun s hs => hs
      · exact fun _ => ih
    · exact fun s hs => hs

end

theorem readLoop_header {header : Record} (n steps : Nat) :
    Call.Keeps (fun s => s.csv.header = header) (readLoop n false steps) :=
  readLoop_keeps (fun _ _ => rfl) (fun _ _ => rfl) (fun _ _ => rfl) n steps

theorem readLoop_views {views : Views} (p : Bool) (n steps : Nat) :
    Call.Keeps (fun s => s.csv.views = views) (readLoop n p steps) := by
  apply readLoop_keeps (fun _ _ => rfl) (fun _ _ => rfl)
  intro s r
  cases p <;> rfl

/-- What comes of the call that reads the header. -/
theorem readRecords_header (io : List UInt8) (separator : UInt8) (views : Views) :
    ∃ o : Outcome Unit × Reading,
      readRecords 1 true ⟨io, 0, separator, [], [], views⟩ = (o.1, { o.2.csv with
        rows := o.2.csv.rows.tail, header := o.2.csv.rows.headD [], views := views }) ∧
      Stored [] [[]] separator 0 views.aside (batch separator 1 io) o := by
  have haside := readLoop_aside (io.length + 1)
    (s := ⟨⟨io, 0, separator, [], [], views⟩, false, [], 0, 0⟩) (Nat.zero_le 1)
  have hviews := @readLoop_views views true 1 (io.length + 1)
    ⟨⟨io, 0, separator, [], [], views⟩, false, [], 0, 0⟩ rfl
  have hstands : Stands [] [[]] none (aside ⟨⟨io, 0, separator, [], [], views⟩, false, [], 0, 0⟩) :=
    ⟨rfl, rfl, rfl, fun hpending => absurd rfl hpending⟩
  have hstored := readLoop_stored _ 1 hstands (Nat.lt_succ_self io.length)
  rw [Call.Carries] at haside
  rw [List.length_nil, Nat.zero_add, haside] at hstored
  cases hloop : readLoop 1 true (io.length + 1)
    ⟨⟨io, 0, separator, [], [], views⟩, false, [], 0, 0⟩ with
  | mk o t =>
    rw [hloop] at hstored hviews
    have hread : readRecords 1 true ⟨io, 0, separator, [], [], views⟩ = (o, t.csv) := by
      rw [readRecords, hloop]
    refine ⟨(o, aside t), ?_, hstored⟩
    rw [hread]
    obtain rfl : t.csv.views = views := hviews
    rfl

end WylesLibs.Csv
