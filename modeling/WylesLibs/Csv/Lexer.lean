import WylesLibs.Csv.Csv

/-! What a call of `read` takes from the stream, apart from where it puts it: the bytes as tokens,
the tokens as records, and then the call as the storing of these records over the rows. -/
namespace WylesLibs.Csv
open Library WylesLibs.Stream Datastructures

/-- What of the state decides the meaning of the next byte. -/
structure Lexer where
  io : List UInt8
  quoted : Bool
  currentStr : List UInt8

inductive Token where
  | skipped
  | taken
  | field (str : List UInt8)
  | last (str : List UInt8)
  | ended
  | failed (w : String)

/-- A byte that is not `handleQuotes`'s. -/
def deliver (separator b : UInt8) (l : Lexer) : Token × Lexer :=
  if isDelimeter separator b then
    (if b = Byte.newline then .last l.currentStr else .field l.currentStr, { l with currentStr := [] })
  else (.taken, { l with currentStr := l.currentStr ++ [b] })

def lex (separator : UInt8) (l : Lexer) : Token × Lexer :=
  match l.io with
  | [] => (.failed endOfData, l)
  | b :: io =>
    let l := { l with io := io }
    if b = eofByte then (.ended, l)
    else if l.quoted = false then
      if b = Byte.quote then
        if l.currentStr.length ≠ 0 then
          (.failed "Quoted string cannot be preceded by a non-delimiting character.", l)
        else (.skipped, { l with quoted := true })
      else if b = Byte.carriageReturn then (.skipped, l)
      else deliver separator b l
    else if b = Byte.quote then
      match io with
      | [] => (.failed endOfData, l)
      | peeked :: io =>
        if peeked = Byte.quote then deliver separator b { l with io := io }
        else if isDelimeter separator peeked then (.skipped, { l with quoted := false })
        else (.failed "Quoted string cannot be followed by a non-delimiting character.", l)
    else deliver separator b l

/-- `pending` is a record that was begun and not ended. -/
structure Batch where
  records : List Record
  pending : Option Record
  ending : Outcome Unit
  rest : List UInt8

/-- The rows that a call comes to, the one that it leaves unfinished with them. -/
def Batch.rows (b : Batch) : List Record := b.records ++ b.pending.toList

/-- At most so many records. -/
def batchLoop (separator : UInt8) : Nat → Nat → Lexer → Option Record → Batch
  | _, 0, l, pending => ⟨[], pending, .ok (), l.io⟩
  | 0, _ + 1, l, pending => ⟨[], pending, .timeout, l.io⟩
  | steps + 1, n + 1, l, pending =>
    let l' := (lex separator l).2
    match (lex separator l).1 with
    | .skipped => batchLoop separator steps (n + 1) l' pending
    | .taken => batchLoop separator steps (n + 1) l' (some (pending.getD []))
    | .field str => batchLoop separator steps (n + 1) l' (some (pending.getD [] ++ [str]))
    | .last str =>
      let b := batchLoop separator steps n l' none
      { b with records := (pending.getD [] ++ [str]) :: b.records }
    | .ended => ⟨[], pending, .ok (), l'.io⟩
    | .failed w => ⟨[], pending, .thrown w, l'.io⟩

def batchFrom (separator : UInt8) (n : Nat) (l : Lexer) (pending : Option Record) : Batch :=
  batchLoop separator (l.io.length + 1) n l pending

/-- What a call takes. -/
def batch (separator : UInt8) (n : Nat) (io : List UInt8) : Batch :=
  batchFrom separator n ⟨io, false, []⟩ none

section
variable {separator b : UInt8} {l l' : Lexer} {n m k : Nat} {pending : Option Record}

theorem deliver_io : (deliver separator b l).2.io = l.io := by
  unfold deliver
  split <;> rfl

/-- A token takes a byte at least, unless there is none. -/
theorem lex_io (h : l.io ≠ []) : (lex separator l).2.io.length < l.io.length := by
  obtain ⟨io, quoted, currentStr⟩ := l
  cases io with
  | nil => exact absurd rfl h
  | cons b io =>
    unfold lex
    simp only
    split_ifs
    · simp
    · simp
    · simp
    · simp
    · rw [deliver_io]
      exact Nat.lt_succ_self _
    · cases io with
      | nil => simp
      | cons peeked io =>
        simp only
        split_ifs
        · rw [deliver_io]
          exact Nat.lt_succ_of_lt (Nat.lt_succ_self _)
        · simp
        · simp
    · rw [deliver_io]
      exact Nat.lt_succ_self _

theorem lex_nil (quoted : Bool) (currentStr : List UInt8) :
    lex separator ⟨[], quoted, currentStr⟩ = (.failed endOfData, ⟨[], quoted, currentStr⟩) := rfl

/-- Steps enough are as good as more. -/
theorem batchLoop_steps (hm : l.io.length < m) (hk : l.io.length < k) :
    batchLoop separator m n l pending = batchLoop separator k n l pending := by
  induction m generalizing k n l pending with
  | zero => omega
  | succ m ih =>
    obtain ⟨k, rfl⟩ : ∃ j, k = j + 1 := ⟨k - 1, by omega⟩
    cases n with
    | zero => simp only [batchLoop]
    | succ n =>
      by_cases hio : l.io = []
      · obtain ⟨io, quoted, currentStr⟩ := l
        obtain rfl : io = [] := hio
        simp only [batchLoop, lex_nil]
      · have hlt := @lex_io separator _ hio
        have hrec : ∀ n pending, batchLoop separator m n (lex separator l).2 pending =
            batchLoop separator k n (lex separator l).2 pending :=
          fun n pending => ih (by omega) (by omega)
        simp only [batchLoop, hrec]

theorem batchFrom_zero : batchFrom separator 0 l pending = ⟨[], pending, .ok (), l.io⟩ := by
  simp only [batchFrom, batchLoop]

theorem batchFrom_succ : batchFrom separator (n + 1) l pending =
    match (lex separator l).1 with
    | .skipped => batchFrom separator (n + 1) (lex separator l).2 pending
    | .taken => batchFrom separator (n + 1) (lex separator l).2 (some (pending.getD []))
    | .field str =>
      batchFrom separator (n + 1) (lex separator l).2 (some (pending.getD [] ++ [str]))
    | .last str =>
      let b := batchFrom separator n (lex separator l).2 none
      { b with records := (pending.getD [] ++ [str]) :: b.records }
    | .ended => ⟨[], pending, .ok (), (lex separator l).2.io⟩
    | .failed w => ⟨[], pending, .thrown w, (lex separator l).2.io⟩ := by
  by_cases hio : l.io = []
  · obtain ⟨io, quoted, currentStr⟩ := l
    obtain rfl : io = [] := hio
    simp only [batchFrom, batchLoop, lex_nil]
  · have hlt := @lex_io separator _ hio
    have hrec : ∀ n pending, batchLoop separator l.io.length n (lex separator l).2 pending =
        batchFrom separator n (lex separator l).2 pending :=
      fun n pending => batchLoop_steps (by omega) (by omega)
    conv_lhs => rw [batchFrom, batchLoop]
    simp only [hrec]

/-- A record that was begun goes on from where it stands. -/
theorem head_rows_of_pending {steps : Nat} {r : Record} :
    ∃ r' rows, (batchLoop separator steps n l (some r)).rows = r' :: rows ∧ r <+: r' := by
  induction steps generalizing n l r with
  | zero => cases n <;> exact ⟨r, [], rfl, List.prefix_rfl⟩
  | succ steps ih =>
    cases n with
    | zero => exact ⟨r, [], rfl, List.prefix_rfl⟩
    | succ n =>
      rw [batchLoop]
      cases (lex separator l).1 with
      | skipped => exact ih
      | taken => exact ih
      | field str =>
        obtain ⟨r', rows, hrows, hprefix⟩ := ih (n := n + 1) (l := (lex separator l).2) (r := r ++ [str])
        exact ⟨r', rows, hrows, (List.prefix_append r [str]).trans hprefix⟩
      | last str => exact ⟨r ++ [str], _, rfl, List.prefix_append r [str]⟩
      | ended => exact ⟨r, [], rfl, List.prefix_rfl⟩
      | failed w => exact ⟨r, [], rfl, List.prefix_rfl⟩

/-- A byte that goes to a record comes to a row. -/
theorem rows_ne_nil_of_deliver (h : lex separator l = deliver separator b l') :
    (batchFrom separator (n + 1) l pending).rows ≠ [] := by
  have hbegun : ∀ (l : Lexer) (r : Record), (batchFrom separator (n + 1) l (some r)).rows ≠ [] := by
    intro l r
    obtain ⟨r', rows, hrows, -⟩ := @head_rows_of_pending separator l (n + 1) (l.io.length + 1) r
    rw [batchFrom, hrows]
    exact List.cons_ne_nil r' rows
  rw [batchFrom_succ, h, deliver]
  cases isDelimeter separator b with
  | false => exact hbegun _ _
  | true =>
    simp only [if_true]
    by_cases hnewline : b = Byte.newline
    · simp only [hnewline, if_true]
      exact List.cons_ne_nil _ _
    · simp only [hnewline, if_false]
      exact hbegun _ _

end
end WylesLibs.Csv
