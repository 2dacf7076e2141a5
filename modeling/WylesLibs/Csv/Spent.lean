import WylesLibs.Csv.Table

/-! What a batch spends of a text: no more than its cells and a byte for each, and where it spends
as much as that, the text has no byte that is not taken as it is. -/
namespace WylesLibs.Csv
open Library WylesLibs.Stream Datastructures

/-! The bytes of a text are those of its cells, and one for each cell that ends. -/

def weight (r : Record) : Nat := (r.map fun cell => cell.length + 1).sum

def weights (rs : List Record) : Nat := (rs.map weight).sum

@[simp] theorem weight_nil : weight [] = 0 := rfl

@[simp] theorem weight_concat (r : Record) (cell : List UInt8) :
    weight (r ++ [cell]) = weight r + (cell.length + 1) := by
  simp [weight]

@[simp] theorem weights_nil : weights [] = 0 := rfl

@[simp] theorem weights_cons (r : Record) (rs : List Record) :
    weights (r :: rs) = weight r + weights rs := by
  simp [weights]

theorem weights_toList (pending : Option Record) :
    weights pending.toList = weight (pending.getD []) := by
  cases pending with
  | none => rfl
  | some r => simp

/-- What a token takes from the text, the bytes that go into the next cell apart. -/
def Token.size : Token → Nat
  | .taken => 0
  | .field str | .last str => str.length + 1
  | .skipped | .ended | .failed _ => 1

/-- More is read behind the token. -/
def Token.GoesOn : Token → Prop
  | .ended | .failed _ => False
  | _ => True

section
variable {separator : UInt8} {l : Lexer}

theorem deliver_size (separator b : UInt8) (l : Lexer) :
    (deliver separator b l).1.size + (deliver separator b l).2.currentStr.length =
      l.currentStr.length + 1 := by
  unfold deliver
  split
  · split
    · simp [Token.size]
    · simp [Token.size]
  · simp [Token.size]

/-- No byte counts twice, and the one that ends a text is no part of a cell. -/
theorem lex_size (separator : UInt8) {l : Lexer} (h : l.io ≠ []) :
    (lex separator l).1.size + (lex separator l).2.io.length + (lex separator l).2.currentStr.length ≤
        l.io.length + l.currentStr.length ∧
      (lex separator l).2.io <:+ l.io ∧
      ((lex separator l).1.GoesOn → eofByte ∈ l.io → eofByte ∈ (lex separator l).2.io) := by
  obtain ⟨io, quoted, currentStr⟩ := l
  cases io with
  | nil => exact absurd rfl h
  | cons b io =>
    have hnext : b ≠ eofByte → eofByte ∈ b :: io → eofByte ∈ io := fun hb heof =>
      (List.mem_cons.mp heof).resolve_left (Ne.symm hb)
    unfold lex
    simp only
    split_ifs with hb hquoted hquote hlen hreturn hquote'
    · exact ⟨by simp [Token.size]; omega, List.suffix_cons b io, fun hgo => hgo.elim⟩
    · exact ⟨by simp [Token.size]; omega, List.suffix_cons b io, fun hgo => hgo.elim⟩
    · exact ⟨by simp [Token.size]; omega, List.suffix_cons b io, fun _ => hnext hb⟩
    · exact ⟨by simp [Token.size]; omega, List.suffix_cons b io, fun _ => hnext hb⟩
    · have hsize := deliver_size separator b ⟨io, quoted, currentStr⟩
      rw [deliver_io]
      exact ⟨by simp only [List.length_cons] at hsize ⊢; omega, List.suffix_cons b io,
        fun _ => hnext hb⟩
    · cases io with
      | nil => exact ⟨by simp [Token.size], List.suffix_cons b [], fun hgo => hgo.elim⟩
      | cons peeked io =>
        simp only
        have hsuffix : io <:+ b :: peeked :: io :=
          (List.suffix_cons peeked io).trans (List.suffix_cons b _)
        split_ifs with hpeeked hends
        · have hsize := deliver_size separator b ⟨io, quoted, currentStr⟩
          have heof : peeked ≠ eofByte := by
            rw [hpeeked]
            decide
          rw [deliver_io]
          refine ⟨by simp only [List.length_cons] at hsize ⊢; omega, hsuffix, fun _ h => ?_⟩
          exact (List.mem_cons.mp (hnext hb h)).resolve_left (Ne.symm heof)
        · exact ⟨by simp [Token.size]; omega, List.suffix_cons b _, fun _ => hnext hb⟩
        · exact ⟨by simp [Token.size]; omega, List.suffix_cons b _, fun hgo => hgo.elim⟩
    · have hsize := deliver_size separator b ⟨io, quoted, currentStr⟩
      rw [deliver_io]
      exact ⟨by simp only [List.length_cons] at hsize ⊢; omega, List.suffix_cons b io,
        fun _ => hnext hb⟩

/-- What a batch takes of a text in which an EOF byte is still to come: more is taken than its
cells, unless it stops for the number of its records, which is in front of an EOF byte. -/
structure Accounts (n : Nat) (l : Lexer) (pending : Option Record) (b : Batch) : Prop where
  weight : weights b.rows + b.rest.length + (if b.records.length < n then 1 else 0) ≤
    l.io.length + l.currentStr.length + weight (pending.getD [])
  suffix : b.rest <:+ l.io
  count : b.records.length ≤ n
  ahead : b.records.length = n → eofByte ∈ b.rest

variable {n : Nat} {pending : Option Record}

theorem batch_accounts (separator : UInt8) (k n : Nat) {l : Lexer} (pending : Option Record)
    (hk : l.io.length ≤ k) (heof : eofByte ∈ l.io) :
    Accounts n l pending (batchFrom separator n l pending) := by
  induction k generalizing n l pending with
  | zero =>
    have hnil := List.length_eq_zero_iff.mp (Nat.le_zero.mp hk)
    simp [hnil] at heof
  | succ k ih =>
    cases n with
    | zero =>
      rw [batchFrom_zero]
      constructor
      · simp [Batch.rows, weights_toList]
        omega
      · exact List.suffix_refl _
      · exact le_rfl
      · exact fun _ => heof
    | succ n =>
      have hne := List.ne_nil_of_mem heof
      have hless := @lex_io separator _ hne
      obtain ⟨hsize, hsuffix, hahead⟩ := lex_size separator hne
      have hk' : (lex separator l).2.io.length ≤ k := by omega
      have hrec := fun n pending hgo => @ih n (lex separator l).2 pending hk' (hahead hgo heof)
      rw [batchFrom_succ]
      cases htoken : (lex separator l).1 with
      | skipped =>
        rw [htoken] at hsize hrec
        dsimp only
        obtain ⟨hweight, hsuffix', hcount, hrest⟩ := hrec (n + 1) pending trivial
        exact ⟨by simp only [Token.size] at hsize; omega, hsuffix'.trans hsuffix, hcount, hrest⟩
      | taken =>
        rw [htoken] at hsize hrec
        dsimp only
        obtain ⟨hweight, hsuffix', hcount, hrest⟩ := hrec (n + 1) (some (pending.getD [])) trivial
        exact ⟨by simp only [Token.size, Option.getD_some] at hsize hweight; omega,
          hsuffix'.trans hsuffix, hcount, hrest⟩
      | field str =>
        rw [htoken] at hsize hrec
        dsimp only
        obtain ⟨hweight, hsuffix', hcount, hrest⟩ :=
          hrec (n + 1) (some (pending.getD [] ++ [str])) trivial
        exact ⟨by simp only [Token.size, Option.getD_some, weight_concat] at hsize hweight; omega,
          hsuffix'.trans hsuffix, hcount, hrest⟩
      | last str =>
        rw [htoken] at hsize hrec
        dsimp only
        obtain ⟨hweight, hsuffix', hcount, hrest⟩ := hrec n none trivial
        refine ⟨?_, hsuffix'.trans hsuffix, by simpa using hcount, fun hn => hrest (by simpa using hn)⟩
        simp only [Batch.rows, Token.size, Option.getD_none, weight_nil, List.cons_append,
          weights_cons, weight_concat, List.length_cons, Nat.add_lt_add_iff_right] at hsize hweight ⊢
        omega
      | ended =>
        rw [htoken] at hsize
        dsimp only
        refine ⟨?_, hsuffix, by simp, by simp⟩
        simp only [Token.size, Batch.rows, List.nil_append, weights_toList, List.length_nil,
          Nat.succ_pos, if_true] at hsize ⊢
        omega
      | failed w =>
        rw [htoken] at hsize
        dsimp only
        refine ⟨?_, hsuffix, by simp, by simp⟩
        simp only [Token.size, Batch.rows, List.nil_append, weights_toList, List.length_nil,
          Nat.succ_pos, if_true] at hsize ⊢
        omega

/-- A byte that is taken as it is. -/
def Clear (b : UInt8) : Prop := b ≠ eofByte ∧ b ≠ Byte.quote ∧ b ≠ Byte.carriageReturn

instance (b : UInt8) : Decidable (Clear b) := inferInstanceAs (Decidable (_ ∧ _))

def cellCount (rs : List Record) : Nat := (rs.map List.length).sum

@[simp] theorem cellCount_cons (r : Record) (rs : List Record) :
    cellCount (r :: rs) = r.length + cellCount rs := by
  simp [cellCount]

theorem cellCount_toList (pending : Option Record) :
    cellCount pending.toList = (pending.getD []).length := by
  cases pending with
  | none => rfl
  | some r => simp [cellCount]

/-- The bytes before the rest of a batch, and the EOF byte that ended it. -/
structure Spends (separator : UInt8) (n : Nat) (l : Lexer) (pending : Option Record) (b : Batch)
    (used : List UInt8) : Prop where
  split : l.io = used ++ (if b.records.length < n then [eofByte] else []) ++ b.rest
  clear : ∀ c ∈ used, Clear c
  count : cellCount b.rows = (used.filter (isDelimeter separator)).length + (pending.getD []).length

/-- Nothing is lost. -/
def Tight (n : Nat) (l : Lexer) (pending : Option Record) (b : Batch) : Prop :=
  weights b.rows + b.rest.length + (if b.records.length < n then 1 else 0) =
    l.io.length + l.currentStr.length + weight (pending.getD [])

theorem not_tight_of_skipped {c : UInt8} {io cur : List UInt8} {quoted : Bool}
    (heof : eofByte ∈ io) : ¬ Tight n ⟨c :: io, false, cur⟩ pending
      (batchFrom separator n ⟨io, quoted, cur⟩ pending) := by
  intro htight
  have hless := (batch_accounts separator io.length n (l := ⟨io, quoted, cur⟩) pending le_rfl heof).weight
  simp only [Tight, List.length_cons] at htight hless
  omega

/-- Where nothing is lost, the first byte is taken as it is. -/
theorem clear_of_tight {c : UInt8} {io cur : List UInt8} (hc : c ≠ eofByte) (heof : eofByte ∈ io)
    (htight : Tight (n + 1) ⟨c :: io, false, cur⟩ pending
      (batchFrom separator (n + 1) ⟨c :: io, false, cur⟩ pending)) : Clear c := by
  rw [batchFrom_succ] at htight
  refine ⟨hc, fun hquote => ?_, fun hreturn => ?_⟩
  · by_cases hcur : cur = []
    · subst hcur
      have hlex : lex separator ⟨c :: io, false, []⟩ = (.skipped, ⟨io, true, []⟩) := by
        subst hquote
        simp [lex, hc]
      rw [hlex] at htight
      exact not_tight_of_skipped heof htight
    · have hpos := List.length_pos_of_ne_nil hcur
      have hlex : (lex separator ⟨c :: io, false, cur⟩).1 =
            .failed "Quoted string cannot be preceded by a non-delimiting character." ∧
          (lex separator ⟨c :: io, false, cur⟩).2.io = io := by
        subst hquote
        simp [lex, hc, hcur]
      rw [hlex.1] at htight
      simp only [Tight, Batch.rows, List.nil_append, weights_toList, hlex.2, List.length_cons,
        List.length_nil, Nat.succ_pos, if_true] at htight
      omega
  · have hquote : c ≠ Byte.quote := by
      subst hreturn
      decide
    have hlex : lex separator ⟨c :: io, false, cur⟩ = (.skipped, ⟨io, false, cur⟩) := by
      subst hreturn
      simp [lex, hc, hquote]
    rw [hlex] at htight
    exact not_tight_of_skipped heof htight

/-- Where nothing is lost, the bytes are all taken as they are, and the delimiters are as many as the
cells that end. -/
theorem spends_of_tight (io : List UInt8) (n : Nat) {cur : List UInt8} {pending : Option Record}
    (heof : eofByte ∈ io)
    (htight : Tight n ⟨io, false, cur⟩ pending (batchFrom separator n ⟨io, false, cur⟩ pending)) :
    ∃ used, Spends separator n ⟨io, false, cur⟩ pending
      (batchFrom separator n ⟨io, false, cur⟩ pending) used := by
  induction io generalizing n cur pending with
  | nil => simp at heof
  | cons c io ih =>
    cases n with
    | zero =>
      rw [batchFrom_zero]
      exact ⟨[], rfl, by simp, by simp [Batch.rows, cellCount_toList]⟩
    | succ n =>
      have hrest : c ≠ eofByte → eofByte ∈ io := fun hc =>
        (List.mem_cons.mp heof).resolve_left (Ne.symm hc)
      by_cases hc : c = eofByte
      · have hlex : lex separator ⟨c :: io, false, cur⟩ = (.ended, ⟨io, false, cur⟩) := by simp [lex, hc]
        rw [batchFrom_succ, hlex]
        refine ⟨[], ?_, by simp, by simp [Batch.rows, cellCount_toList]⟩
        simp [hc]
      have hclear := clear_of_tight hc (hrest hc) htight
      have hlex : lex separator ⟨c :: io, false, cur⟩ = deliver separator c ⟨io, false, cur⟩ := by
        simp [lex, hc, hclear.2.1, hclear.2.2]
      rw [batchFrom_succ, hlex] at htight ⊢
      cases hdelimeter : isDelimeter separator c with
      | false =>
        have hdeliver : deliver separator c ⟨io, false, cur⟩ = (.taken, ⟨io, false, cur ++ [c]⟩) := by
          simp [deliver, hdelimeter]
        rw [hdeliver] at htight ⊢
        obtain ⟨used, hsplit, hall, hcount⟩ :=
          @ih (n + 1) (cur ++ [c]) (some (pending.getD [])) (hrest hc) (by
            simp only [Tight, List.length_cons, List.length_append, List.length_nil,
              Option.getD_some] at htight ⊢
            omega)
        refine ⟨c :: used, ?_, List.forall_mem_cons.mpr ⟨hclear, hall⟩, ?_⟩
        · simpa using hsplit
        · simpa [hdelimeter] using hcount
      | true =>
        by_cases hnewline : c = Byte.newline
        · have hdeliver : deliver separator c ⟨io, false, cur⟩ = (.last cur, ⟨io, false, []⟩) := by
            simp [deliver, hnewline]
          rw [hdeliver] at htight ⊢
          obtain ⟨used, hsplit, hall, hcount⟩ :=
            @ih n [] none (hrest hc) (by
              simp only [Tight, Batch.rows, List.cons_append, weights_cons, weight_concat,
                List.length_cons, List.length_nil, Option.getD_none, weight_nil,
                Nat.add_lt_add_iff_right] at htight ⊢
              omega)
          refine ⟨c :: used, ?_, List.forall_mem_cons.mpr ⟨hclear, hall⟩, ?_⟩
          · simpa using hsplit
          · simp only [Batch.rows, Option.getD_none, List.length_nil] at hcount ⊢
            rw [List.cons_append, cellCount_cons, hcount]
            simp [hdelimeter]
            omega
        · have hdeliver : deliver separator c ⟨io, false, cur⟩ = (.field cur, ⟨io, false, []⟩) := by
            simp [deliver, hdelimeter, hnewline]
          rw [hdeliver] at htight ⊢
          obtain ⟨used, hsplit, hall, hcount⟩ :=
            @ih (n + 1) [] (some (pending.getD [] ++ [cur])) (hrest hc) (by
              simp only [Tight, List.length_cons, List.length_nil, Option.getD_some,
                weight_concat] at htight ⊢
              omega)
          refine ⟨c :: used, ?_, List.forall_mem_cons.mpr ⟨hclear, hall⟩, ?_⟩
          · simpa using hsplit
          · simp only [Option.getD_some, List.length_append, List.length_singleton] at hcount
            simp [hdelimeter, hcount]
            omega

end

/-! The batch that reads to the end. -/

theorem batch_ending_nil {n : Nat} (hn : n ≠ 0) :
    (batch Byte.comma n []).ending = .thrown endOfData := by
  obtain ⟨n, rfl⟩ := Nat.exists_eq_succ_of_ne_zero hn
  rw [batch, batchFrom_succ, lex_nil]

theorem eof_mem_of_suffix {io text : List UInt8} (h : io <:+ text ++ [eofByte]) (hne : io ≠ []) :
    eofByte ∈ io := by
  obtain ⟨pre, hpre⟩ := h
  have hlast := congrArg List.getLast? hpre
  rw [List.getLast?_append_of_ne_nil _ hne, List.getLast?_concat] at hlast
  exact List.mem_of_getLast? hlast

/-- The batch that reads the rest of a text to its end spends no more than is there. -/
theorem spends_rest {io : List UInt8} {n : Nat} (heof : eofByte ∈ io) :
    weights (batch Byte.comma n io).rows + 1 ≤ io.length ∧
      (weights (batch Byte.comma n io).rows + 1 = io.length →
        ∃ used last, io = used ++ [last] ∧ (∀ b ∈ used, Clear b) ∧
          cellCount (batch Byte.comma n io).rows = (used.filter (isDelimeter Byte.comma)).length) := by
  obtain ⟨hweight, -, hcount, hahead⟩ :=
    @batch_accounts Byte.comma io.length n ⟨io, false, []⟩ none le_rfl heof
  have hbatch : batchFrom Byte.comma n ⟨io, false, []⟩ none = batch Byte.comma n io := rfl
  rw [hbatch] at hweight hcount hahead
  simp only [List.length_nil, Option.getD_none, weight_nil, Nat.add_zero] at hweight
  have hpast : 1 ≤ (batch Byte.comma n io).rest.length +
      if (batch Byte.comma n io).records.length < n then 1 else 0 := by
    split
    · omega
    · next hfull =>
      have hpos := List.length_pos_of_mem (hahead (by omega))
      omega
  refine ⟨by omega, fun heq => ?_⟩
  have htight : Tight n ⟨io, false, []⟩ none (batch Byte.comma n io) := by
    simp only [Tight, List.length_nil, Option.getD_none, weight_nil, Nat.add_zero]
    omega
  obtain ⟨used, hsplit, hclear, hcells⟩ := spends_of_tight io n heof htight
  rw [hbatch] at hsplit hcells
  obtain ⟨last, hlast⟩ : ∃ last, (if (batch Byte.comma n io).records.length < n then [eofByte]
      else []) ++ (batch Byte.comma n io).rest = [last] := by
    apply List.length_eq_one_iff.mp
    by_cases hshort : (batch Byte.comma n io).records.length < n
    · simp only [if_pos hshort, List.length_append, List.length_singleton] at hweight ⊢
      omega
    · simp only [if_neg hshort, List.nil_append] at hweight hpast ⊢
      omega
  refine ⟨used, last, ?_, hclear, by simpa using hcells⟩
  rw [← hlast, ← List.append_assoc]
  exact hsplit

end WylesLibs.Csv
