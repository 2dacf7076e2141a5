import WylesLibs.EStream.Reads
import WylesLibs.Library.Runs

/-! A buffered stream over a file descriptor is a cursor over the bytes behind it. -/
namespace WylesLibs.Stream
open Library
variable {α : Type}

inductive StreamOp (α : Type) where
  | get | peek | unget
  | readEls (n : Nat)
  | read (untilEls : List α) (inclusive : Bool)

inductive StreamAnswer (α : Type) where
  | element (el : α)
  | elements (els : List α)
  | nothing

/-- A position in the data. `armed` says that the last element consumed came from `get` and has
not been given back. -/
structure Cursor (α : Type) where
  els : List α
  pos : Nat
  armed : Bool

namespace Cursor

def ahead (c : Cursor α) : List α := c.els.drop c.pos

def moved (c : Cursor α) (n : Nat) (armed : Bool) : Cursor α := ⟨c.els, c.pos + n, armed⟩

section
variable [DecidableEq α]

/-- No answer where an element past the end is needed. -/
def step (c : Cursor α) : StreamOp α → Option (StreamAnswer α × Cursor α)
  | .get => c.ahead.head?.map fun el => (.element el, c.moved 1 true)
  | .peek => c.ahead.head?.map fun el => (.element el, c)
  | .unget => some (.nothing, ⟨c.els, c.pos - 1, false⟩)
  | .readEls n =>
    if n ≤ c.ahead.length then some (.elements (c.ahead.take n), c.moved n false) else none
  | .read untilEls inclusive =>
    let pre := c.ahead.takeWhile fun el => el ∉ untilEls
    match c.ahead.dropWhile fun el => el ∉ untilEls with
    | [] => none
    | u :: _ =>
      if inclusive then some (.elements (pre ++ [u]), c.moved (pre.length + 1) false)
      else some (.elements pre, c.moved pre.length false)

/-- The order of calls a client keeps to: an `unget` gives back what the last `get` took. -/
def Disciplined (c : Cursor α) : StreamOp α → Prop
  | .unget => c.armed = true
  | .readEls n => 1 ≤ n
  | _ => True

/-- The two limits of the stream: on the length of a read by number, and on how many elements
the criteria of a read by match may see. -/
def WithinLimits (c : Cursor α) : StreamOp α → Prop
  | .readEls n => n ≤ arbitraryLimitBecauseDumb
  | .read untilEls inclusive =>
    seen inclusive (c.ahead.takeWhile fun el => el ∉ untilEls)
      (c.ahead.dropWhile fun el => el ∉ untilEls).tail ≤ arbitrarySpatialUntilLimit
  | _ => True

end
end Cursor

/-- A throw ends what the client sees. -/
def EStream.step [DecidableEq α] (s : EStream α) (op : StreamOp α) :
    Option (StreamAnswer α × EStream α) :=
  match op with
  | .get => (EStream.get s).toOption.map fun p => (.element p.1, p.2)
  | .peek => (EStream.peek s).toOption.map fun p => (.element p.1, p.2)
  | .unget => some (.nothing, s.unget)
  | .readEls n => (EStream.readEls n s).toOption.map fun p => (.elements p.1, p.2)
  | .read untilEls inclusive =>
    (Stream.read untilEls (none : Option (NullTask α)) inclusive s).toOption.map
      fun p => (.elements p.1, p.2)

/-- The stream stands at the cursor, and can give back what the cursor may. -/
structure At (c : Cursor α) (s : EStream α) : Prop where
  wellFormed : s.WellFormed
  remaining : s.remaining = c.ahead
  recoverable : c.armed = true → 0 < c.pos ∧ ∃ el, c.els[c.pos - 1]? = some el ∧ s.Recoverable el

namespace At
variable {c : Cursor α} {s : EStream α}

theorem of_moved {s' : EStream α} {n : Nat} (h : s'.WellFormed)
    (hrem : s'.remaining = c.ahead.drop n) : At (c.moved n false) s' where
  wellFormed := h
  remaining := by rw [hrem]; exact List.drop_drop
  recoverable := by simp [Cursor.moved]

theorem ahead_cons {el : α} (hel : c.ahead.head? = some el) :
    c.ahead = el :: c.ahead.drop 1 ∧ c.els[c.pos]? = some el := by
  constructor
  · cases ha : c.ahead with
    | nil => simp [ha] at hel
    | cons a l =>
      obtain rfl : a = el := by simpa [ha] using hel
      rfl
  · simpa [Cursor.ahead, List.head?_drop] using hel

variable [DecidableEq α]

theorem get {el : α} (h : At c s) (hel : c.ahead.head? = some el) :
    ∃ s', s.step .get = some (.element el, s') ∧ At (c.moved 1 true) s' := by
  obtain ⟨hcons, hpos⟩ := ahead_cons hel
  obtain ⟨s', hs', h', hrem, hrec⟩ := EStream.get_spec h.wellFormed (h.remaining.trans hcons)
  refine ⟨s', by simp [EStream.step, hs', Outcome.toOption], h', ?_, ?_⟩
  · rw [hrem]
    exact List.drop_drop
  · exact fun _ => ⟨Nat.succ_pos _, el, hpos, hrec⟩

theorem peek {el : α} (h : At c s) (hel : c.ahead.head? = some el) :
    ∃ s', s.step .peek = some (.element el, s') ∧ At c s' := by
  obtain ⟨hcons, -⟩ := ahead_cons hel
  obtain ⟨s', hs', h', hrem, -, hrec⟩ := EStream.peek_spec h.wellFormed (h.remaining.trans hcons)
  refine ⟨s', by simp [EStream.step, hs', Outcome.toOption], h', hrem.trans hcons.symm, ?_⟩
  intro ha
  obtain ⟨hpos, el, hel, hr⟩ := h.recoverable ha
  exact ⟨hpos, el, hel, hrec el hr⟩

theorem unget (h : At c s) (ha : c.armed = true) :
    ∃ s', s.step .unget = some (.nothing, s') ∧ At ⟨c.els, c.pos - 1, false⟩ s' := by
  obtain ⟨hpos, el, hel, hr⟩ := h.recoverable ha
  obtain ⟨h', hrem⟩ := EStream.unget_spec h.wellFormed hr
  refine ⟨s.unget, rfl, h', ?_, by simp⟩
  obtain ⟨hlt, hget⟩ := List.getElem?_eq_some_iff.mp hel
  rw [hrem, h.remaining, Cursor.ahead, Cursor.ahead, List.drop_eq_getElem_cons hlt, hget,
    Nat.sub_add_cancel hpos]

theorem readEls {n : Nat} (h : At c s) (hn : 1 ≤ n) (hlimit : n ≤ arbitraryLimitBecauseDumb)
    (hle : n ≤ c.ahead.length) :
    ∃ s', s.step (.readEls n) = some (.elements (c.ahead.take n), s') ∧
      At (c.moved n false) s' := by
  obtain ⟨s', hs', h', hrem⟩ :=
    EStream.readEls_spec hn hlimit h.wellFormed (by rw [h.remaining]; exact hle)
  rw [h.remaining] at hs' hrem
  exact ⟨s', by simp [EStream.step, hs', Outcome.toOption], of_moved h' hrem⟩

theorem read {untilEls pre rest : List α} {u : α} {inclusive : Bool} (h : At c s)
    (hsplit : c.ahead = pre ++ u :: rest) (hpre : ∀ a ∈ pre, a ∉ untilEls) (hu : u ∈ untilEls)
    (hlimit : seen inclusive pre rest ≤ arbitrarySpatialUntilLimit) :
    ∃ s', s.step (.read untilEls inclusive) =
        some (.elements (pre ++ if inclusive then [u] else []), s') ∧
      At (c.moved (pre.length + if inclusive then 1 else 0) false) s' := by
  have hsim := holds_sim.read untilEls (none : Option (NullTask α)) inclusive s c.ahead
    ⟨h.wellFormed, h.remaining⟩
  rw [hsplit, read_list hpre hu hlimit] at hsim
  generalize hrun : Stream.read untilEls (none : Option (NullTask α)) inclusive s = r at hsim
  cases hsim with
  | ok hs' =>
    rename_i s'
    refine ⟨s', by simp [EStream.step, hrun, Outcome.toOption], of_moved hs'.1 ?_⟩
    rw [hs'.2, hsplit]
    cases inclusive <;> simp [List.drop_append]

end At

/-- One call, within the limits and in the client's order, answers what the cursor does. -/
theorem step_at [DecidableEq α] (c : Cursor α) (s : EStream α) (op : StreamOp α)
    (o : StreamAnswer α) (c' : Cursor α) (h : At c s) (hmay : c.Disciplined op ∧ c.WithinLimits op)
    (hstep : c.step op = some (o, c')) : ∃ s', s.step op = some (o, s') ∧ At c' s' := by
  obtain ⟨hdisc, hlimit⟩ := hmay
  cases op with
  | get =>
    obtain ⟨el, hel, heq⟩ := Option.map_eq_some_iff.mp hstep
    cases heq
    exact h.get hel
  | peek =>
    obtain ⟨el, hel, heq⟩ := Option.map_eq_some_iff.mp hstep
    cases heq
    exact h.peek hel
  | unget =>
    cases hstep
    exact h.unget hdisc
  | readEls n =>
    simp only [Cursor.step] at hstep
    split at hstep
    · rename_i hle
      cases hstep
      exact h.readEls hdisc hlimit hle
    · cases hstep
  | read untilEls inclusive =>
    simp only [Cursor.step] at hstep
    cases hdrop : c.ahead.dropWhile fun el => el ∉ untilEls with
    | nil =>
      simp only [hdrop] at hstep
      cases hstep
    | cons u rest =>
      have hsplit := List.takeWhile_append_dropWhile (p := fun el => el ∉ untilEls) (l := c.ahead)
      rw [hdrop] at hsplit
      have hu : u ∈ untilEls := by
        have hhead := List.head?_dropWhile_not (fun el => decide (el ∉ untilEls)) c.ahead
        rw [hdrop] at hhead
        simpa using hhead
      have hpre : ∀ a ∈ c.ahead.takeWhile fun el => el ∉ untilEls, a ∉ untilEls := fun a ha => by
        simpa using List.mem_takeWhile_imp ha
      simp only [Cursor.WithinLimits, hdrop, List.tail_cons] at hlimit
      obtain ⟨s', hs', h'⟩ := h.read hsplit.symm hpre hu hlimit
      refine ⟨s', ?_⟩
      cases inclusive with
      | false =>
        simp only [hdrop] at hstep
        cases hstep
        exact ⟨by simpa using hs', by simpa using h'⟩
      | true =>
        simp only [hdrop] at hstep
        cases hstep
        exact ⟨by simpa using hs', by simpa using h'⟩

theorem ofFd_at [Inhabited α] {chunks : List (List α)} {bs : Nat} (hbs : 1 ≤ bs)
    (hchunks : ∀ c ∈ chunks, c ≠ [] ∧ c.length ≤ bs) :
    ∃ s, EStream.ofFd ⟨chunks, false⟩ bs = .ok s ∧ At ⟨chunks.flatten, 0, false⟩ s := by
  refine ⟨_, by rw [EStream.ofFd, if_neg (by omega)], ?_, rfl, by simp⟩
  exact { poll := by simp, chunk := hchunks, els := rfl, cursor := Nat.le_refl _
          ungot := by simp, badbit := by simp }

/-- However the descriptor splits its bytes into reads, and whatever the size of the buffer, the
stream answers as the cursor does until an element past the end is asked for. -/
theorem estream_refines_cursor (bytes : List UInt8) (bs : Nat) (hbs : 1 ≤ bs)
    (chunks : List (List UInt8)) (hbytes : chunks.flatten = bytes)
    (hchunks : ∀ c ∈ chunks, c ≠ [] ∧ c.length ≤ bs) (ops : List (StreamOp UInt8))
    (hops : Permitted Cursor.step (fun c op => c.Disciplined op ∧ c.WithinLimits op)
      ⟨bytes, 0, false⟩ ops) :
    ∃ s, EStream.ofFd ⟨chunks, false⟩ bs = .ok s ∧
      answers Cursor.step ⟨bytes, 0, false⟩ ops <+: answers EStream.step s ops := by
  subst hbytes
  obtain ⟨s, hs, hat⟩ := ofFd_at hbs hchunks
  exact ⟨s, hs, answers_prefix step_at hat hops⟩

theorem estream_refines_cursor_unget :
    (1 ≤ 1 ∧ Permitted Cursor.step (fun c op => c.Disciplined op ∧ c.WithinLimits op)
      (⟨[7, 8], 0, false⟩ : Cursor UInt8) [.get, .peek, .unget, .readEls 2]) ∧
    ∃ s, EStream.ofFd ⟨[[7], [8]], false⟩ 1 = .ok s ∧
      answers Cursor.step (⟨[7, 8], 0, false⟩ : Cursor UInt8) [.get, .peek, .unget, .readEls 2] <+:
        answers EStream.step s [.get, .peek, .unget, .readEls 2] := by
  have hops : Permitted Cursor.step (fun c op => c.Disciplined op ∧ c.WithinLimits op)
      (⟨[7, 8], 0, false⟩ : Cursor UInt8) [.get, .peek, .unget, .readEls 2] := by
    simp [Permitted, Cursor.step, Cursor.Disciplined, Cursor.WithinLimits, Cursor.ahead,
      Cursor.moved, arbitraryLimitBecauseDumb]
  exact ⟨⟨Nat.le_refl 1, hops⟩, estream_refines_cursor [7, 8] 1 (by decide) [[7], [8]] rfl
    (by decide) _ hops⟩

theorem readEls_refused [DecidableEq α] (s : EStream α) {n : Nat}
    (hn : arbitraryLimitBecauseDumb < n) : answers EStream.step s [.readEls n] = [] := by
  have hz : n ≠ 0 := by omega
  simp [answers, EStream.step, EStream.readEls, hz, hn, Outcome.toOption]

/-- A client that keeps to the order of calls may still ask for more than the limit. -/
theorem readEls_past_limit (n : Nat) (hn : arbitraryLimitBecauseDumb < n) :
    Permitted Cursor.step Cursor.Disciplined (⟨List.replicate n 0, 0, false⟩ : Cursor UInt8)
        [.readEls n] ∧
      ∃ s, EStream.ofFd ⟨[List.replicate n 0], false⟩ n = .ok s ∧
        ¬ answers Cursor.step (⟨List.replicate n 0, 0, false⟩ : Cursor UInt8) [.readEls n] <+:
          answers EStream.step s [.readEls n] := by
  refine ⟨by simp [Permitted, Cursor.Disciplined]; omega, _,
    by rw [EStream.ofFd, if_neg (by omega)], ?_⟩
  rw [readEls_refused _ hn]
  simp [answers, Cursor.step, Cursor.ahead]

theorem cursor_not_refined_past_limit :
    Permitted Cursor.step Cursor.Disciplined
        (⟨List.replicate 4294967297 0, 0, false⟩ : Cursor UInt8) [.readEls 4294967297] ∧
      ∃ s, EStream.ofFd ⟨[List.replicate 4294967297 0], false⟩ 4294967297 = .ok s ∧
        ¬ answers Cursor.step (⟨List.replicate 4294967297 0, 0, false⟩ : Cursor UInt8)
          [.readEls 4294967297] <+: answers EStream.step s [.readEls 4294967297] :=
  readEls_past_limit 4294967297 (by decide)

end WylesLibs.Stream
