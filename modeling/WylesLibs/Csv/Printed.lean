import WylesLibs.Csv.Header
import WylesLibs.Csv.Spent

/-! `toString` of a `CSV<std::string>`, and what the reader makes of the text. -/
namespace WylesLibs.Csv
open Library WylesLibs.Stream Datastructures

namespace CSV

def columns (c : CSV) : Nat := (c.rows.headD []).length

/-- The loop over the cells of a line; the separator is a comma whatever the reader's is. -/
def line (size : Nat) (r : Record) : List UInt8 :=
  (List.range size).flatMap fun i =>
    element r i [] ++ [if i + 1 = size then Byte.newline else Byte.comma]

/-- The rows are as long as the first. -/
def text (c : CSV) : List UInt8 :=
  line c.header.length c.header ++ c.rows.flatMap (line c.columns)

/-- The pointers that are read for the sizes and the cells are null. -/
def shown (c : CSV) : Bool :=
  c.views.header && c.views.matrix && (c.rows.isEmpty || c.views.row 0) &&
    (decide (c.columns = 0) || (List.range c.rows.length).all c.views.row)

def toString (c : CSV) : Outcome (List UInt8) := if c.shown then .ok c.text else .undef

end CSV

/-! The text. -/

def unquoted (r : Record) : List Field := r.map (Field.mk false)

/-- The lines of a text, the header first. -/
def CSV.printed (c : CSV) : List Record :=
  if c.header = [] then c.rows else c.header :: c.rows

/-- A table with columns, and a header for each of them or none at all. -/
structure CSV.Rectangular (c : CSV) (n : Nat) : Prop where
  columns : n ≠ 0
  header : c.header = [] ∨ c.header.length = n
  rows : ∀ r ∈ c.rows, r.length = n

/-- A cell that is read as it is written. -/
def Bare (cell : List UInt8) : Prop :=
  ∀ b ∈ cell, Clear b ∧ isDelimeter Byte.comma b = false

instance (cell : List UInt8) : Decidable (Bare cell) :=
  inferInstanceAs (Decidable (∀ b ∈ cell, _))

theorem line_cons (cell : List UInt8) (r : Record) :
    CSV.line (r.length + 1) (cell :: r) =
      cell ++ (if r.length = 0 then Byte.newline else Byte.comma) :: CSV.line r.length r := by
  simp [CSV.line, List.range_succ_eq_map, List.flatMap_map, element, eq_comm]

theorem line_eq {r : Record} (hr : r ≠ []) :
    CSV.line r.length r = encodeRow Byte.comma (unquoted r) := by
  induction r with
  | nil => exact absurd rfl hr
  | cons cell r ih =>
    rw [List.length_cons, line_cons]
    cases r with
    | nil => rfl
    | cons cell' r =>
      rw [ih (by simp)]
      simp [unquoted, encodeRow, encodeField]

theorem length_encodeRow {r : Record} (hr : r ≠ []) :
    (encodeRow Byte.comma (unquoted r)).length = weight r := by
  induction r with
  | nil => exact absurd rfl hr
  | cons cell r ih =>
    cases r with
    | nil => simp [unquoted, encodeRow, encodeField, weight]
    | cons cell' r =>
      have hrest := ih (by simp)
      have hcons : encodeRow Byte.comma (unquoted (cell :: cell' :: r)) =
          cell ++ Byte.comma :: encodeRow Byte.comma (unquoted (cell' :: r)) := by
        simp [unquoted, encodeRow, encodeField]
      have hweight : weight (cell :: cell' :: r) = cell.length + 1 + weight (cell' :: r) := by
        simp [weight]
      rw [hcons, List.length_append, List.length_cons, hrest, hweight]
      omega

theorem isDelimeter_comma : isDelimeter Byte.comma Byte.comma = true := by decide

/-- Delimiters that stand in a cell come on top of those that end one. -/
theorem delimeters_encodeRow {r : Record} (hr : r ≠ []) :
    ((encodeRow Byte.comma (unquoted r)).filter (isDelimeter Byte.comma)).length =
      r.length + (r.map fun cell => (cell.filter (isDelimeter Byte.comma)).length).sum := by
  induction r with
  | nil => exact absurd rfl hr
  | cons cell r ih =>
    cases r with
    | nil => simp [unquoted, encodeRow, encodeField, isDelimeter_newline]; omega
    | cons cell' r =>
      have hrest := ih (by simp)
      have hcons : encodeRow Byte.comma (unquoted (cell :: cell' :: r)) =
          cell ++ Byte.comma :: encodeRow Byte.comma (unquoted (cell' :: r)) := by
        simp [unquoted, encodeRow, encodeField]
      rw [hcons, List.filter_append, List.filter_cons_of_pos isDelimeter_comma, List.length_append,
        List.length_cons, hrest]
      simp only [List.map_cons, List.sum_cons, List.length_cons]
      omega

theorem mem_encodeRow {r : Record} {cell : List UInt8} {b : UInt8} (hcell : cell ∈ r)
    (hb : b ∈ cell) : b ∈ encodeRow Byte.comma (unquoted r) := by
  induction r with
  | nil => simp at hcell
  | cons cell' r ih =>
    have hencode : ∃ rest, encodeRow Byte.comma (unquoted (cell' :: r)) = cell' ++ rest ∧
        (cell ∈ r → b ∈ rest) := by
      cases r with
      | nil => exact ⟨[Byte.newline], by simp [unquoted, encodeRow, encodeField], by simp⟩
      | cons cell'' r =>
        refine ⟨Byte.comma :: encodeRow Byte.comma (unquoted (cell'' :: r)),
          by simp [unquoted, encodeRow, encodeField], fun h => ?_⟩
        exact List.mem_cons_of_mem _ (ih h)
    obtain ⟨rest, hencode, hrest⟩ := hencode
    rw [hencode, List.mem_append]
    obtain rfl | hcell := List.mem_cons.mp hcell
    · exact Or.inl hb
    · exact Or.inr (hrest hcell)

/-- The text of some lines. -/
def encoding (rs : List Record) : List UInt8 :=
  rs.flatMap fun r => encodeRow Byte.comma (unquoted r)

theorem length_encoding {rs : List Record} (hne : ∀ r ∈ rs, r ≠ []) :
    (encoding rs).length = weights rs := by
  induction rs with
  | nil => rfl
  | cons r rs ih =>
    obtain ⟨hr, hrs⟩ := List.forall_mem_cons.mp hne
    have hcons : encoding (r :: rs) = encodeRow Byte.comma (unquoted r) ++ encoding rs := rfl
    rw [hcons, List.length_append, length_encodeRow hr, ih hrs, weights_cons]

/-- Lines with as many delimiters as cells, and no other special byte, have bare cells. -/
theorem bare_of_count {rs : List Record} (hne : ∀ r ∈ rs, r ≠ [])
    (hclear : ∀ b ∈ encoding rs, Clear b)
    (hcount : ((encoding rs).filter (isDelimeter Byte.comma)).length ≤ cellCount rs) :
    ∀ r ∈ rs, ∀ cell ∈ r, Bare cell := by
  have hlower : ∀ rs : List Record, (∀ r ∈ rs, r ≠ []) →
      cellCount rs ≤ ((encoding rs).filter (isDelimeter Byte.comma)).length := by
    intro rs hne
    induction rs with
    | nil => simp [cellCount]
    | cons r rs ih =>
      obtain ⟨hr, hrs⟩ := List.forall_mem_cons.mp hne
      have hcons : encoding (r :: rs) = encodeRow Byte.comma (unquoted r) ++ encoding rs := rfl
      have hrest := ih hrs
      rw [hcons, List.filter_append, List.length_append, delimeters_encodeRow hr, cellCount_cons]
      omega
  induction rs with
  | nil => simp
  | cons r rs ih =>
    obtain ⟨hr, hrs⟩ := List.forall_mem_cons.mp hne
    have hcons : encoding (r :: rs) = encodeRow Byte.comma (unquoted r) ++ encoding rs := rfl
    rw [hcons] at hclear hcount
    have hrest := hlower rs hrs
    rw [List.filter_append, List.length_append, delimeters_encodeRow hr, cellCount_cons] at hcount
    refine List.forall_mem_cons.mpr ⟨fun cell hcell b hb => ?_, ?_⟩
    · have hmem := mem_encodeRow hcell hb
      refine ⟨hclear b (List.mem_append_left _ hmem), ?_⟩
      have hzero : (cell.filter (isDelimeter Byte.comma)).length = 0 := by
        have hle := List.le_sum_of_mem (List.mem_map.mpr ⟨cell, hcell, rfl⟩ :
          (cell.filter (isDelimeter Byte.comma)).length ∈
            r.map fun cell => (cell.filter (isDelimeter Byte.comma)).length)
        omega
      have hnil := List.filter_eq_nil_iff.mp (List.length_eq_zero_iff.mp hzero) b hb
      simpa using hnil
    · exact ih hrs (fun b hb => hclear b (List.mem_append_right _ hb)) (by omega)

theorem text_eq {c : CSV} {n : Nat} (h : c.Rectangular n) : c.text = encoding c.printed := by
  have hrows : c.rows.flatMap (CSV.line c.columns) = encoding c.rows := by
    apply List.flatMap_congr
    intro r hr
    have hcolumns : c.columns = n := by
      cases hc : c.rows with
      | nil => simp [hc] at hr
      | cons r' rs => rw [CSV.columns, hc, List.headD_cons, h.rows r' (by simp [hc])]
    have hne : r ≠ [] := by
      rintro rfl
      exact h.columns (h.rows [] hr).symm
    rw [hcolumns, ← h.rows r hr, line_eq hne]
  rw [CSV.text, hrows, CSV.printed]
  split
  · next hnone =>
    rw [hnone]
    rfl
  · next hsome => rw [line_eq hsome]; rfl

theorem printed_ne_nil {c : CSV} {n : Nat} (h : c.Rectangular n) : ∀ r ∈ c.printed, r ≠ [] := by
  have hrows : ∀ r ∈ c.rows, r ≠ [] := by
    rintro r hr rfl
    exact h.columns (h.rows [] hr).symm
  unfold CSV.printed
  split
  · exact hrows
  · next hsome => exact List.forall_mem_cons.mpr ⟨hsome, hrows⟩

/-! Reading it. -/

/-- The pointers through which a table like `c` is read are null. -/
def Views.Reads (v : Views) (c : CSV) : Prop :=
  (c.header ≠ [] → v.header = true) ∧ ∀ i < c.rows.length, v.null false i = true

theorem bare_of_rows {c c' : CSV} {views : Views} {n : Nat} (h : c.Rectangular n)
    (hnone : c.header = [])
    (hread : readAll false ⟨c.text ++ [eofByte], 0, Byte.comma, [], [], views⟩ = (.ok (), c'))
    (hrows : c'.rows = c.rows) : views.Reads c ∧ ∀ r ∈ c.printed, ∀ cell ∈ r, Bare cell := by
  have hprinted : c.printed = c.rows := if_pos hnone
  have hne := printed_ne_nil h
  rw [hprinted] at hne ⊢
  obtain ⟨o, hcall, hstored⟩ := @Table.readAll_new Byte.comma (c.text ++ [eofByte]) views
  obtain ⟨hok, rfl⟩ : o.1 = .ok () ∧ o.2.csv = c' := Prod.mk.inj (hcall.symm.trans hread)
  obtain ⟨-, htaken, hnull⟩ := Table.stored_returned hstored hok
  rw [hrows] at htaken
  rw [← htaken] at hnull
  obtain ⟨-, hspent⟩ := @spends_rest (c.text ++ [eofByte]) sizeMax (by simp)
  rw [← htaken, List.length_append, List.length_singleton, text_eq h, hprinted,
    length_encoding hne] at hspent
  obtain ⟨used, last, hsplit, hclear, hcount⟩ := hspent rfl
  obtain ⟨rfl, -⟩ := List.append_inj' hsplit rfl
  exact ⟨⟨fun hsome => absurd hnone hsome, hnull⟩, bare_of_count hne hclear hcount.ge⟩

/-- A reader whose header has been read: the line was all that the call took, and nothing of it
was stored elsewhere. -/
structure HeaderRead (io : List UInt8) (views : Views) (d : CSV) : Prop where
  rows : (batch Byte.comma 1 io).rows = [d.header]
  nothing : d.rows = []
  rest : d.io = (batch Byte.comma 1 io).rest
  separator : d.separator = Byte.comma
  null : views.header = true
  views : d.views = views

theorem headerRead {io : List UInt8} {views : Views} {d : CSV}
    (h : readRecords 1 true ⟨io, 0, Byte.comma, [], [], views⟩ = (.ok (), d))
    (hsome : d.header ≠ []) : HeaderRead io views d := by
  obtain ⟨o, hcall, hstored⟩ := readRecords_header io Byte.comma views
  obtain ⟨hok, rfl⟩ := Prod.mk.inj (hcall.symm.trans h)
  have hviewed := hstored.viewed hok
  have hfits : Fits 0 (sizes [[]] (batch Byte.comma 1 io).records) := by
    by_contra hmisfits
    rw [hstored.misfits hviewed hmisfits] at hok
    cases hok
  obtain ⟨-, hrows, hrest⟩ := hstored.fits hviewed hfits
  have htaken : o.2.csv.rows = coverRows [[]] (batch Byte.comma 1 io).rows := hrows
  have hone : (batch Byte.comma 1 io).rows.length ≤ 1 := length_rows_le (by simp)
  simp only [htaken] at hsome ⊢
  cases hbatch : (batch Byte.comma 1 io).rows with
  | nil => simp [hbatch, coverRows] at hsome
  | cons r rs =>
    obtain rfl : rs = [] := by
      rw [hbatch] at hone
      exact List.length_eq_zero_iff.mp (by simpa using hone)
    have hnull : views.header = true := hviewed 0 (by simp [hbatch])
    exact ⟨by simp [hbatch, coverRows], by simp [coverRows], hrest, hstored.separator, hnull, rfl⟩

theorem readRecords_keeps_header {d c' : CSV} {o : Outcome Unit} {n : Nat}
    (h : readRecords n false d = (o, c')) : c'.header = d.header := by
  have hkept := @readLoop_header d.header n (d.io.length + 1) ⟨d, false, [], 0, 0⟩ rfl
  have hcsv : (readLoop n false (d.io.length + 1) ⟨d, false, [], 0, 0⟩).2.csv = c' :=
    congrArg Prod.snd h
  rw [← hcsv]
  exact hkept

/-- The call that reads the header has returned, and so has the one behind it. -/
theorem readAll_true_inv {io : List UInt8} {views : Views} {c' : CSV}
    (h : readAll true ⟨io, 0, Byte.comma, [], [], views⟩ = (.ok (), c')) :
    ∃ d, readRecords 1 true ⟨io, 0, Byte.comma, [], [], views⟩ = (.ok (), d) ∧
      readRecords sizeMax false d = (.ok (), c') := by
  have hall : readAll true ⟨io, 0, Byte.comma, [], [], views⟩ =
      (readRecords 1 true >>= fun _ => readRecords sizeMax false)
        ⟨io, 0, Byte.comma, [], [], views⟩ := rfl
  rw [hall] at h
  cases hfirst : readRecords 1 true ⟨io, 0, Byte.comma, [], [], views⟩ with
  | mk o d =>
    cases o with
    | ok u => exact ⟨d, rfl, (Call.bind_of_ok hfirst).symm.trans h⟩
    | thrown w =>
      rw [Call.bind_of_thrown hfirst] at h
      cases h
    | undef =>
      simp only [Bind.bind, hfirst] at h
      cases h
    | timeout =>
      simp only [Bind.bind, hfirst] at h
      cases h

theorem bare_of_header {c c' : CSV} {views : Views} {n : Nat} (h : c.Rectangular n)
    (hsome : c.header ≠ [])
    (hread : readAll true ⟨c.text ++ [eofByte], 0, Byte.comma, [], [], views⟩ = (.ok (), c'))
    (hheader : c'.header = c.header) (hrows : c'.rows = c.rows) :
    views.Reads c ∧ ∀ r ∈ c.printed, ∀ cell ∈ r, Bare cell := by
  have hprinted : c.printed = c.header :: c.rows := if_neg hsome
  have hne := printed_ne_nil h
  rw [hprinted] at hne ⊢
  have htext : c.text = encoding (c.header :: c.rows) := by rw [text_eq h, hprinted]
  have hlength : c.text.length = weight c.header + weights c.rows := by
    rw [htext, length_encoding hne, weights_cons]
  -- the two calls
  obtain ⟨d, hfirst, hsecond⟩ := readAll_true_inv hread
  have hkept : d.header = c.header := (readRecords_keeps_header hsecond).symm.trans hheader
  obtain ⟨htaken₁, hnothing, hrest, hseparator, hfirstnull, hviews⟩ :=
    headerRead hfirst (hkept ▸ hsome)
  obtain ⟨o, hcall, hstored⟩ := Batches.read_stored ⟨d, none⟩ sizeMax
  obtain ⟨hok, rfl⟩ : o.1 = .ok () ∧ o.2.csv = c' := Prod.mk.inj (hcall.symm.trans hsecond)
  simp only [Batches.taken, hseparator, hnothing, hviews] at hstored
  obtain ⟨hending, htaken₂, hnull⟩ := Table.stored_returned hstored hok
  rw [hrows, hrest] at htaken₂
  rw [hrest, ← htaken₂] at hnull
  rw [hrest] at hending
  -- what they spend
  obtain ⟨hweight, hsuffix, hcount, -⟩ := @batch_accounts Byte.comma (c.text ++ [eofByte]).length 1
    ⟨c.text ++ [eofByte], false, []⟩ none le_rfl (by simp)
  have hbatch : batchFrom Byte.comma 1 ⟨c.text ++ [eofByte], false, []⟩ none =
      batch Byte.comma 1 (c.text ++ [eofByte]) := rfl
  rw [hbatch] at hweight hsuffix hcount
  have heof : eofByte ∈ (batch Byte.comma 1 (c.text ++ [eofByte])).rest := by
    apply eof_mem_of_suffix hsuffix
    intro hnil
    rw [hnil, batch_ending_nil (by simp [sizeMax])] at hending
    cases hending
  obtain ⟨hspent, hspent₂⟩ := @spends_rest _ sizeMax heof
  rw [← htaken₂] at hspent hspent₂
  rw [htaken₁, hkept] at hweight
  simp only [weights_cons, weights_nil, List.length_append, List.length_singleton, hlength,
    List.length_nil, Option.getD_none, weight_nil, Nat.add_zero] at hweight
  have hfull : ¬ (batch Byte.comma 1 (c.text ++ [eofByte])).records.length < 1 := by
    intro hshort
    rw [if_pos hshort] at hweight
    omega
  rw [if_neg hfull, Nat.add_zero] at hweight
  have htight : Tight 1 ⟨c.text ++ [eofByte], false, []⟩ none
      (batch Byte.comma 1 (c.text ++ [eofByte])) := by
    simp only [Tight, htaken₁, hkept, if_neg hfull, weights_cons, weights_nil, List.length_append,
      List.length_singleton, hlength, List.length_nil, Option.getD_none, weight_nil, Nat.add_zero]
    omega
  obtain ⟨used₁, hsplit₁, hclear₁, hcount₁⟩ := spends_of_tight (c.text ++ [eofByte]) 1 (by simp) htight
  obtain ⟨used₂, last, hsplit₂, hclear₂, hcount₂⟩ := hspent₂ (by omega)
  rw [hbatch] at hsplit₁ hcount₁
  rw [if_neg hfull, List.append_nil, hsplit₂, ← List.append_assoc] at hsplit₁
  obtain ⟨hused, -⟩ := List.append_inj' hsplit₁ rfl
  rw [htext] at hused
  refine ⟨⟨fun _ => hfirstnull, hnull⟩, bare_of_count hne ?_ ?_⟩
  · rw [hused]
    exact List.forall_mem_append.mpr ⟨hclear₁, hclear₂⟩
  · rw [htaken₁, hkept] at hcount₁
    simp only [cellCount_cons, Option.getD_none, List.length_nil, Nat.add_zero] at hcount₁
    have hzero : cellCount [] = 0 := rfl
    rw [hused, List.filter_append, List.length_append, cellCount_cons]
    omega

/-! A table of bare cells comes back. -/

theorem unquoted_valid {r : Record} (h : ∀ cell ∈ r, Bare cell) :
    (∀ f ∈ unquoted r, f.Valid Byte.comma) ∧ ∀ f ∈ unquoted r, f.Plain Byte.comma := by
  constructor
  · intro f hf
    obtain ⟨cell, hcell, rfl⟩ := List.mem_map.mp hf
    constructor
    · exact fun heof => (h cell hcell _ heof).1.1 rfl
    · rintro ⟨b, hb, hspecial⟩
      obtain ⟨⟨-, hquote, hreturn⟩, hdelimeter⟩ := h cell hcell b hb
      have hends : isDelimeter Byte.comma b = true ∨ b = Byte.carriageReturn ∨ b = Byte.quote := by
        simp only [special, List.mem_cons, List.not_mem_nil, or_false] at hspecial
        obtain rfl | rfl | hother := hspecial
        · exact Or.inl isDelimeter_comma
        · exact Or.inl isDelimeter_newline
        · exact Or.inr hother
      rw [hdelimeter] at hends
      simp [hquote, hreturn] at hends
  · intro f hf
    obtain ⟨cell, hcell, rfl⟩ := List.mem_map.mp hf
    exact fun b hb => (h cell hcell b hb).2

theorem texts_unquoted (r : Record) : texts (unquoted r) = r := by
  simp [texts, unquoted, Function.comp_def]

theorem batch_encoding {rs : List Record} {n : Nat} (hne : ∀ r ∈ rs, r ≠ [])
    (hbare : ∀ r ∈ rs, ∀ cell ∈ r, Bare cell) (hn : rs.length ≤ n) :
    ∃ io, batch Byte.comma n (encoding rs ++ [eofByte]) = ⟨rs, none, .ok (), io⟩ := by
  have hlow : Byte.comma < 0x80 := by decide
  obtain ⟨io, hio⟩ := @batchFrom_rows Byte.comma n (rs.map unquoted) (by decide)
    (by simpa [unquoted] using hne) (fun _ _ => Or.inl hlow)
    (fun row hrow => by
      obtain ⟨r, hr, rfl⟩ := List.mem_map.mp hrow
      exact (unquoted_valid (hbare r hr)).1)
    (fun row hrow => by
      obtain ⟨r, hr, rfl⟩ := List.mem_map.mp hrow
      exact (unquoted_valid (hbare r hr)).2) (by simpa using hn)
  refine ⟨io, ?_⟩
  have hencode : encoding rs = (rs.map unquoted).flatMap (encodeRow Byte.comma) := by
    rw [encoding, List.flatMap_map]
  have hmap : (rs.map unquoted).map texts = rs := by
    rw [List.map_map]
    have hid : texts ∘ unquoted = id := funext texts_unquoted
    rw [hid, List.map_id]
  rw [batch, hencode, hio, hmap]

theorem fits_same {size n : Nat} {rs : List Record} (hn : n ≠ 0) (hsize : size = 0 ∨ size = n)
    (h : ∀ r ∈ rs, r.length = n) : Fits size (sizes [] rs) := by
  have hlength : ∀ x ∈ rs.map List.length, x = n := by
    intro x hx
    obtain ⟨r, hr, rfl⟩ := List.mem_map.mp hx
    exact h r hr
  rw [(Table.covers_nil rs).sizes, fits_iff fun x hx => (hlength x hx) ▸ hn]
  intro x hx
  rw [hlength x hx, settle]
  obtain rfl | rfl := hsize
  · cases hsizes : rs.map List.length with
    | nil => simp [hsizes] at hx
    | cons y ys => exact (hlength y (by simp [hsizes])).symm
  · rw [if_neg hn]

theorem readRows {d : CSV} {rs : List Record} {n : Nat} (hn : n ≠ 0)
    (hsize : d.recordSize = 0 ∨ d.recordSize = n) (hseparator : d.separator = Byte.comma)
    (hnothing : d.rows = []) (hnull : ∀ i < rs.length, d.views.null false i = true) (hio : d.io = encoding rs ++ [eofByte]) (hrs : ∀ r ∈ rs, r.length = n)
    (hbare : ∀ r ∈ rs, ∀ cell ∈ r, Bare cell) (hcount : rs.length ≤ sizeMax) :
    ∃ c', readRecords sizeMax false d = (.ok (), c') ∧ c'.rows = rs ∧ c'.header = d.header := by
  have hne : ∀ r ∈ rs, r ≠ [] := by
    rintro r hr rfl
    exact hn (hrs [] hr).symm
  obtain ⟨o, hcall, hstored⟩ := Batches.read_stored ⟨d, none⟩ sizeMax
  obtain ⟨io, hbatch⟩ := batch_encoding hne hbare hcount
  simp only [Batches.taken, hseparator, hnothing, hio, hbatch] at hstored
  have hviewed : Viewed d.views 0 ⟨rs, none, .ok (), io⟩ := by
    intro i hi
    rw [Nat.zero_add]
    exact hnull i (by simpa [Batch.rows] using hi)
  obtain ⟨hok, hrows, -⟩ := hstored.fits hviewed (fits_same hn hsize hrs)
  have hread : readRecords sizeMax false d = (o.1, o.2.csv) := hcall
  refine ⟨o.2.csv, by rw [hread, hok], ?_, readRecords_keeps_header hread⟩
  rw [hrows, List.nil_append, Table.coverRows_nil, Batch.rows, Option.toList_none, List.append_nil]

theorem readHeader {header : Record} {text : List UInt8} {views : Views} (hsome : header ≠ [])
    (hnull : views.header = true) (hbare : ∀ cell ∈ header, Bare cell) :
    readRecords 1 true
        ⟨encodeRow Byte.comma (unquoted header) ++ text, 0, Byte.comma, [], [], views⟩ =
      (.ok (), ⟨text, header.length, Byte.comma, [], header, views⟩) := by
  obtain ⟨hvalid, hplain⟩ := unquoted_valid hbare
  have hunquoted : unquoted header ≠ [] := by simpa [unquoted] using hsome
  have hlow : Byte.comma < 0x80 := by decide
  have hbatch : batch Byte.comma 1 (encodeRow Byte.comma (unquoted header) ++ text) =
      ⟨[header], none, .ok (), text⟩ := by
    rw [batch, batchFrom_row (by decide) hunquoted (Or.inl hlow) hvalid hplain, afterField, if_pos rfl,
      texts_unquoted, batchFrom_zero]
    rfl
  obtain ⟨o, hcall, hstored⟩ :=
    readRecords_header (encodeRow Byte.comma (unquoted header) ++ text) Byte.comma views
  rw [hbatch] at hstored
  have hviewed : Viewed views.aside 0 ⟨[header], none, .ok (), text⟩ := fun _ _ => hnull
  have hfits : Fits 0 (sizes [[]] [header]) := ⟨by simp [settle], trivial⟩
  obtain ⟨hok, hrows, hrest⟩ := hstored.fits hviewed hfits
  have hsize : o.2.csv.recordSize = header.length := by
    rw [hstored.recordSize hviewed]
    simp [settle, sizes]
  have hone : o.2.csv.rows = [header] := by simpa [coverRows, Batch.rows] using hrows
  have hseparator := hstored.separator
  have hrest : o.2.csv.io = text := hrest
  rw [hcall, hok]
  generalize o.2.csv = d at hsize hone hseparator hrest ⊢
  obtain ⟨io, recordSize, separator, rows, header', views'⟩ := d
  subst hsize hone hseparator hrest
  rfl

theorem toString_eq_ok {c : CSV} {text : List UInt8} :
    c.toString = .ok text ↔ c.shown = true ∧ c.text = text := by
  unfold CSV.toString
  cases c.shown <;> simp

/-- A table that is written out, with an EOF byte put behind the text, is read back, with its header,
if and only if its cells are bare: no comma, newline, carriage return, quote or EOF byte stands in
them. That is where the pointers which both sides read without having set them are null. -/
theorem printed_read_iff (c : CSV) (views : Views) {n : Nat} (h : c.Rectangular n)
    (hcount : c.rows.length ≤ sizeMax) :
    (∃ text d c', c.toString = .ok text ∧ make (text ++ [eofByte]) Byte.comma views = .ok d ∧
      readAll (decide (c.header ≠ [])) d = (.ok (), c') ∧ c'.header = c.header ∧ c'.rows = c.rows) ↔
    c.shown = true ∧ views.Reads c ∧ ∀ r ∈ c.printed, ∀ cell ∈ r, Bare cell := by
  have hmake : make (c.text ++ [eofByte]) Byte.comma views =
      .ok ⟨c.text ++ [eofByte], 0, Byte.comma, [], [], views⟩ := if_neg (by decide)
  constructor
  · rintro ⟨text, d, c', htext, hd, hread, hheader, hrows⟩
    obtain ⟨hshown, rfl⟩ := toString_eq_ok.mp htext
    obtain rfl := Outcome.ok.inj (hmake.symm.trans hd)
    refine ⟨hshown, ?_⟩
    by_cases hnone : c.header = []
    · simp only [hnone, ne_eq, not_true_eq_false, decide_false] at hread
      exact bare_of_rows h hnone hread hrows
    · simp only [ne_eq, hnone, not_false_eq_true, decide_true] at hread
      exact bare_of_header h hnone hread hheader hrows
  · rintro ⟨hshown, ⟨hnull, hnulls⟩, hbare⟩
    have htext := text_eq h
    by_cases hnone : c.header = []
    · have hprinted : c.printed = c.rows := if_pos hnone
      rw [hprinted] at hbare htext
      obtain ⟨c', hread, hrows, hkept⟩ :=
        @readRows ⟨c.text ++ [eofByte], 0, Byte.comma, [], [], views⟩ c.rows n h.columns (Or.inl rfl)
          rfl rfl hnulls (by rw [htext]) h.rows hbare hcount
      refine ⟨_, _, c', toString_eq_ok.mpr ⟨hshown, rfl⟩, hmake, ?_, by rw [hkept, hnone], hrows⟩
      simp only [hnone, ne_eq, not_true_eq_false, decide_false]
      exact hread
    · have hprinted : c.printed = c.header :: c.rows := if_neg hnone
      rw [hprinted] at hbare htext
      obtain ⟨hheader, hcells⟩ := List.forall_mem_cons.mp hbare
      obtain ⟨c', hread, hrows, hkept⟩ :=
        @readRows ⟨encoding c.rows ++ [eofByte], c.header.length, Byte.comma, [], c.header, views⟩
          c.rows n h.columns (Or.inr (h.header.resolve_left hnone)) rfl rfl hnulls rfl h.rows hcells
          hcount
      refine ⟨_, _, c', toString_eq_ok.mpr ⟨hshown, rfl⟩, hmake, ?_, hkept, hrows⟩
      have hsplit : c.text ++ [eofByte] =
          encodeRow Byte.comma (unquoted c.header) ++ (encoding c.rows ++ [eofByte]) := by
        rw [htext, ← List.append_assoc]
        rfl
      have hall : readAll true ⟨c.text ++ [eofByte], 0, Byte.comma, [], [], views⟩ =
          (readRecords 1 true >>= fun _ => readRecords sizeMax false)
            ⟨c.text ++ [eofByte], 0, Byte.comma, [], [], views⟩ := rfl
      simp only [ne_eq, hnone, not_false_eq_true, decide_true]
      rw [hall, hsplit, Call.bind_of_ok (readHeader hnone (hnull hnone) hheader), hread]

/-- A header and one row. -/
theorem printed_read_iff_one : ∃ text d c',
    CSV.toString ⟨[], 0, Byte.comma, [[[0x31], []]], [[0x61], [0x62]], Views.zeros⟩ = .ok text ∧
    make (text ++ [eofByte]) Byte.comma Views.zeros = .ok d ∧
    readAll true d = (.ok (), c') ∧ c'.header = [[0x61], [0x62]] ∧ c'.rows = [[[0x31], []]] := by
  have hrectangular : CSV.Rectangular
      ⟨[], 0, Byte.comma, [[[0x31], []]], [[0x61], [0x62]], Views.zeros⟩ 2 := by
    constructor
    · simp
    · simp
    · simp
  have hbare : ∀ r ∈ CSV.printed
      ⟨[], 0, Byte.comma, [[[0x31], []]], [[0x61], [0x62]], Views.zeros⟩,
      ∀ cell ∈ r, Bare cell := by decide +kernel
  exact (printed_read_iff _ Views.zeros hrectangular (by simp [sizeMax])).mpr
    ⟨rfl, ⟨fun _ => rfl, fun _ _ => rfl⟩, hbare⟩

end WylesLibs.Csv
