import WylesLibs.Library.Outcome
import WylesLibs.StringUtils

/-! `base64`: groups of three bytes as four characters of an alphabet, and back. -/
namespace WylesLibs.Base64
open Library

def base64Chars : List UInt8 :=
  bytes "ABCDEFGHIJKLMNOPQRSTUVWXYZabcdefghijklmnopqrstuvwxyz0123456789+/".toList

def padding : UInt8 := 0x3D

/-! `base64Encode`. -/

/-- `base64_chars[i]`; the string ends in a zero. -/
def base64Char (i : Nat) : UInt8 := base64Chars.getD i 0

/-- `char_array_4` for `char_array_3`. -/
def sextets (charArray3 : Fin 3 → UInt8) : List Nat :=
  let b := fun k => (charArray3 k).toNat
  [(b 0 &&& 0xfc) >>> 2, ((b 0 &&& 0x03) <<< 4) + ((b 1 &&& 0xf0) >>> 4),
    ((b 1 &&& 0x0f) <<< 2) + ((b 2 &&& 0xc0) >>> 6), b 2 &&& 0x3f]

/-- The cells keep what earlier groups left in them. -/
structure Encoder where
  encodedString : List UInt8
  i : Fin 3
  charArray3 : Fin 3 → UInt8

namespace Encoder

def push (e : Encoder) (b : UInt8) : Encoder :=
  let charArray3 := Function.update e.charArray3 e.i b
  -- `i == 3` after the increment
  if e.i = 2 then ⟨e.encodedString ++ (sextets charArray3).map base64Char, 0, charArray3⟩
  else ⟨e.encodedString, e.i + 1, charArray3⟩

def finish (e : Encoder) : List UInt8 :=
  if e.i = 0 then e.encodedString
  else
    let charArray3 := fun j => if e.i ≤ j then 0 else e.charArray3 j
    e.encodedString ++ ((sextets charArray3).take (e.i + 1)).map base64Char ++
      List.replicate (3 - e.i) padding

end Encoder

def encodeLoop (input : List UInt8) : Nat → Encoder → Outcome Encoder
  | 0, e => .ok e
  | inputLength + 1, e =>
    match input[input.length - inputLength - 1]? with
    | none => .undef
    | some b => encodeLoop input inputLength (e.push b)

/-- The length is an `int`. With a negative one the first index is already past the end. -/
def base64Encode (input : List UInt8) : Outcome (List UInt8) :=
  let inputLength := Int.bmod input.length (2 ^ 32)
  if inputLength < 0 then .undef
  else
    -- every cell is written before it is read
    (encodeLoop input inputLength.toNat ⟨[], 0, fun _ => 0⟩).bind fun e => .ok e.finish

/-! `base64Decode`. -/

/-- `char_array_3` for `char_array_4`. -/
def octets (charArray4 : Fin 4 → Nat) : List Nat :=
  let c := charArray4
  [(c 0 <<< 2) + ((c 1 &&& 0x30) >>> 4), ((c 1 &&& 0xf) <<< 4) + ((c 2 &&& 0x3c) >>> 2),
    ((c 2 &&& 0x3) <<< 6) + c 3]

structure Decoder where
  decoded : List UInt8
  i : Fin 4
  charArray4 : Fin 4 → Nat

namespace Decoder

def push (d : Decoder) (charIndex : Nat) : Decoder :=
  let charArray4 := Function.update d.charArray4 d.i charIndex
  if d.i = 3 then ⟨d.decoded ++ (octets charArray4).map UInt8.ofNat, 0, charArray4⟩
  else ⟨d.decoded, d.i + 1, charArray4⟩

/-- Of the last group the third byte is never written. -/
def finish (d : Decoder) : List UInt8 :=
  if d.i = 0 then d.decoded
  else
    let charArray4 := fun k => if d.i ≤ k then 0 else d.charArray4 k
    d.decoded ++ (((octets charArray4).take 2).take (d.i - 1)).map UInt8.ofNat

end Decoder

def decodeLoop : List UInt8 → Decoder → Decoder
  | [], d => d
  | encodedChar :: input, d =>
    if encodedChar = padding then d
    else
      match base64Chars.idxOf? encodedChar with
      | none => decodeLoop input d
      | some charIndex => decodeLoop input (d.push charIndex)

def base64Decode (input : List UInt8) : List UInt8 :=
  (decodeLoop input ⟨[], 0, fun _ => 0⟩).finish

/-! One group. -/

theorem base64Chars_idxOf? (i : Fin 64) :
    base64Char i ≠ padding ∧ base64Chars.idxOf? (base64Char i) = some i.val := by
  revert i
  decide +kernel

/-- The masks and shifts of a byte. -/
theorem byte_bits (b : Fin 256) :
    (b.val &&& 0xfc) >>> 2 = b / 4 ∧ (b.val &&& 0x03) <<< 4 = b % 4 * 16 ∧
      (b.val &&& 0xf0) >>> 4 = b / 16 ∧ (b.val &&& 0x0f) <<< 2 = b % 16 * 4 ∧
      (b.val &&& 0xc0) >>> 6 = b / 64 ∧ b.val &&& 0x3f = b % 64 := by
  revert b
  decide +kernel

/-- The masks and shifts of the index of a character. -/
theorem index_bits (c : Fin 64) :
    c.val <<< 2 = c * 4 ∧ (c.val &&& 0x30) >>> 4 = c / 16 ∧ (c.val &&& 0xf) <<< 4 = c % 16 * 16 ∧
      (c.val &&& 0x3c) >>> 2 = c / 4 ∧ (c.val &&& 0x3) <<< 6 = c % 4 * 64 := by
  revert c
  decide +kernel

/-- The indices of three bytes. -/
def group (a b c : UInt8) : List Nat :=
  [a.toNat / 4, a.toNat % 4 * 16 + b.toNat / 16, b.toNat % 16 * 4 + c.toNat / 64, c.toNat % 64]

theorem sextets_eq (cells : Fin 3 → UInt8) : sextets cells = group (cells 0) (cells 1) (cells 2) := by
  have hbits := fun k => byte_bits ⟨(cells k).toNat, (cells k).toNat_lt⟩
  obtain ⟨h₀, h₁, -⟩ := hbits 0
  obtain ⟨-, -, h₂, h₃, -⟩ := hbits 1
  obtain ⟨-, -, -, -, h₄, h₅⟩ := hbits 2
  simp only [sextets, group] at *
  rw [h₀, h₁, h₂, h₃, h₄, h₅]

theorem octets_eq {cells : Fin 4 → Nat} (hcells : ∀ k, cells k < 64) :
    octets cells =
      [cells 0 * 4 + cells 1 / 16, cells 1 % 16 * 16 + cells 2 / 4, cells 2 % 4 * 64 + cells 3] := by
  have hbits := fun k => index_bits ⟨cells k, hcells k⟩
  obtain ⟨h₀, -⟩ := hbits 0
  obtain ⟨-, h₁, h₂, -⟩ := hbits 1
  obtain ⟨-, -, -, h₃, h₄⟩ := hbits 2
  simp only [octets] at *
  rw [h₀, h₁, h₂, h₃, h₄]

theorem group_lt {a b c : UInt8} : ∀ i ∈ group a b c, i < 64 := by
  have ha := a.toNat_lt
  have hb := b.toNat_lt
  have hc := c.toNat_lt
  simp only [group, List.forall_mem_cons, List.not_mem_nil, false_implies, implies_true, and_true]
  omega

/-- Four indices are those of three bytes. -/
theorem exists_group {w x y z : Nat} (hw : w < 64) (hx : x < 64) (hy : y < 64) (hz : z < 64) :
    ∃ a b c, group a b c = [w, x, y, z] := by
  refine ⟨.ofNat (w * 4 + x / 16), .ofNat (x % 16 * 16 + y / 4), .ofNat (y % 4 * 64 + z), ?_⟩
  simp only [group, UInt8.toNat_ofNat', List.cons.injEq, and_true]
  omega

/-- The octets of the indices of three bytes are the bytes. -/
theorem octets_group {a b c : UInt8} {cells : Fin 4 → Nat}
    (hcells : [cells 0, cells 1, cells 2, cells 3] = group a b c) :
    (octets cells).map UInt8.ofNat = [a, b, c] := by
  have hb := b.toNat_lt
  have hc := c.toNat_lt
  have hlt : ∀ k, cells k < 64 := by
    intro k
    have hmem : cells k ∈ [cells 0, cells 1, cells 2, cells 3] := by fin_cases k <;> simp
    rw [hcells] at hmem
    exact group_lt _ hmem
  rw [octets_eq hlt]
  simp only [group, List.cons.injEq, and_true] at hcells
  obtain ⟨h₀, h₁, h₂, h₃⟩ := hcells
  have hfirst : cells 0 * 4 + cells 1 / 16 = a.toNat := by omega
  have hsecond : cells 1 % 16 * 16 + cells 2 / 4 = b.toNat := by omega
  have hthird : cells 2 % 4 * 64 + cells 3 = c.toNat := by omega
  rw [hfirst, hsecond, hthird]
  simp

/-- Two bytes, when the bits that stand for no byte are zero. -/
theorem exists_group_two {w x y : Nat} (hw : w < 64) (hx : x < 64) (hy : y < 64)
    (hzero : y % 4 = 0) : ∃ a b, group a b 0 = [w, x, y, 0] := by
  refine ⟨.ofNat (w * 4 + x / 16), .ofNat (x % 16 * 16 + y / 4), ?_⟩
  simp only [group, UInt8.toNat_ofNat', UInt8.toNat_zero, List.cons.injEq, and_true]
  omega

theorem exists_group_one {w x : Nat} (hw : w < 64) (hx : x < 64) (hzero : x % 16 = 0) :
    ∃ a, group a 0 0 = [w, x, 0, 0] := by
  refine ⟨.ofNat (w * 4 + x / 16), ?_⟩
  simp only [group, UInt8.toNat_ofNat', UInt8.toNat_zero, List.cons.injEq, and_true]
  omega

/-! The text of a list of bytes. -/

def encodeText : List UInt8 → List UInt8
  | a :: b :: c :: l => (group a b c).map base64Char ++ encodeText l
  | [a, b] => ((group a b 0).take 3).map base64Char ++ [padding]
  | [a] => ((group a 0 0).take 2).map base64Char ++ [padding, padding]
  | [] => []

theorem length_encodeText (l : List UInt8) : (encodeText l).length = 4 * ((l.length + 2) / 3) := by
  induction l using encodeText.induct with
  | case1 a b c l ih =>
    simp only [encodeText, List.length_append, List.length_map, group, List.length_cons,
      List.length_nil, ih]
    omega
  | case2 a b => simp [encodeText, group]
  | case3 a => simp [encodeText, group]
  | case4 => rfl

/-- Whatever the cells hold, a whole group writes all of them. -/
theorem finish_foldl_push (l : List UInt8) (e : Encoder) (he : e.i = 0) :
    (l.foldl Encoder.push e).finish = e.encodedString ++ encodeText l := by
  induction l using encodeText.induct generalizing e with
  | case1 a b c l ih =>
    obtain ⟨encodedString, i, cells⟩ := e
    obtain rfl : i = 0 := he
    simp only [List.foldl_cons]
    rw [ih _ rfl]
    simp [Encoder.push, sextets_eq, encodeText]
  | case2 a b =>
    obtain ⟨encodedString, i, cells⟩ := e
    obtain rfl : i = 0 := he
    simp [Encoder.push, Encoder.finish, sextets_eq, encodeText]
  | case3 a =>
    obtain ⟨encodedString, i, cells⟩ := e
    obtain rfl : i = 0 := he
    simp [Encoder.push, Encoder.finish, sextets_eq, encodeText]
  | case4 => simp [Encoder.finish, he, encodeText]

theorem encodeLoop_eq (input : List UInt8) (inputLength : Nat) (e : Encoder)
    (h : inputLength ≤ input.length) :
    encodeLoop input inputLength e =
      .ok ((input.drop (input.length - inputLength)).foldl Encoder.push e) := by
  induction inputLength generalizing e with
  | zero => simp [encodeLoop]
  | succ n ih =>
    have hlt : input.length - (n + 1) < input.length := by omega
    have hget : input[input.length - n - 1]? = some input[input.length - (n + 1)] :=
      List.getElem?_eq_getElem hlt
    have hnext : input.length - (n + 1) + 1 = input.length - n := by omega
    rw [List.drop_eq_getElem_cons hlt, hnext, List.foldl_cons, encodeLoop, hget]
    exact ih _ (by omega)

/-- What an `int` makes of a length. -/
theorem bmod_length (n : Nat) :
    n < 2 ^ 31 ∧ Int.bmod n (2 ^ 32) = n ∨
      2 ^ 31 ≤ n ∧ (Int.bmod n (2 ^ 32) < 0 ∨ ∃ k, Int.bmod n (2 ^ 32) = (k : Nat) ∧ k + 3 < n) := by
  rw [Int.bmod_def]
  obtain hlt | hge := Nat.lt_or_ge n (2 ^ 31)
  · exact Or.inl ⟨hlt, by split <;> omega⟩
  · refine Or.inr ⟨hge, ?_⟩
    split
    · exact Or.inr ⟨n % 2 ^ 32, by omega, by omega⟩
    · exact Or.inl (by omega)

theorem base64Encode_of_bmod {input : List UInt8} {k : Nat}
    (hlen : Int.bmod input.length (2 ^ 32) = k) (hk : k ≤ input.length) :
    base64Encode input = .ok (encodeText (input.drop (input.length - k))) := by
  have hpos : ¬ (k : Int) < 0 := by omega
  unfold base64Encode
  simp only [hlen, if_neg hpos, Int.toNat_natCast, encodeLoop_eq input k _ hk, Outcome.bind_ok,
    finish_foldl_push _ (⟨[], 0, fun _ => 0⟩ : Encoder) rfl, List.nil_append]

/-- A text comes out right exactly when its length is an `int`. -/
theorem base64Encode_ok_iff (input : List UInt8) :
    base64Encode input = .ok (encodeText input) ↔ input.length < 2 ^ 31 := by
  obtain ⟨hlt, hlen⟩ | ⟨hge, hneg | ⟨k, hlen, hk⟩⟩ := bmod_length input.length
  · have hencoded := base64Encode_of_bmod hlen le_rfl
    rw [Nat.sub_self, List.drop_zero] at hencoded
    exact iff_of_true hencoded hlt
  · have hundef : base64Encode input = .undef := by
      unfold base64Encode
      simp only [if_pos hneg]
    rw [hundef]
    exact iff_of_false (by simp) (Nat.not_lt.mpr hge)
  · -- the bytes before the last `k` are left out
    rw [base64Encode_of_bmod hlen (by omega)]
    refine iff_of_false (fun h => ?_) (Nat.not_lt.mpr hge)
    have hlen := congrArg List.length (Outcome.ok.inj h)
    simp only [length_encodeText, List.length_drop] at hlen
    omega

theorem decodeLoop_char {i : Nat} (hi : i < 64) (input : List UInt8) (d : Decoder) :
    decodeLoop (base64Char i :: input) d = decodeLoop input (d.push i) := by
  obtain ⟨hne, hidx⟩ := base64Chars_idxOf? ⟨i, hi⟩
  rw [decodeLoop, if_neg hne, hidx]

theorem decodeLoop_padding (input : List UInt8) (d : Decoder) :
    decodeLoop (padding :: input) d = d := by
  rw [decodeLoop, if_pos rfl]

/-- The cells of a group, of which the last may still be missing. -/
theorem octets_filled {w x y z : Nat} {cells : Fin 4 → Nat} {a b c : UInt8}
    (hgroup : group a b c = [w, x, y, z]) (h₀ : cells 0 = w) (h₁ : cells 1 = x) (h₂ : cells 2 = y)
    (h₃ : cells 3 = z) : (octets cells).map UInt8.ofNat = [a, b, c] :=
  octets_group (by rw [hgroup, h₀, h₁, h₂, h₃])

/-- Whatever the cells hold, the text of a list of bytes is read back. -/
theorem finish_decodeLoop (l : List UInt8) (d : Decoder) (hd : d.i = 0) :
    (decodeLoop (encodeText l) d).finish = d.decoded ++ l := by
  induction l using encodeText.induct generalizing d with
  | case1 a b c l ih =>
    obtain ⟨decoded, i, cells⟩ := d
    obtain rfl : i = 0 := hd
    obtain ⟨w, x, y, z, hgroup⟩ : ∃ w x y z, group a b c = [w, x, y, z] := ⟨_, _, _, _, rfl⟩
    have hlt := group_lt (a := a) (b := b) (c := c)
    simp only [hgroup, List.forall_mem_cons] at hlt
    obtain ⟨hw, hx, hy, hz, -⟩ := hlt
    rw [encodeText, hgroup]
    simp only [List.map_cons, List.map_nil, List.cons_append, List.nil_append,
      decodeLoop_char hw, decodeLoop_char hx, decodeLoop_char hy, decodeLoop_char hz]
    rw [ih _ rfl]
    have hoctets := @octets_filled w x y z (Function.update (Function.update (Function.update
      (Function.update cells 0 w) 1 x) 2 y) 3 z) a b c hgroup rfl rfl rfl rfl
    simp [Decoder.push, hoctets]
  | case2 a b =>
    obtain ⟨decoded, i, cells⟩ := d
    obtain rfl : i = 0 := hd
    obtain ⟨w, x, y, hgroup⟩ : ∃ w x y, group a b 0 = [w, x, y, 0] := ⟨_, _, _, rfl⟩
    have hlt := group_lt (a := a) (b := b) (c := 0)
    simp only [hgroup, List.forall_mem_cons] at hlt
    obtain ⟨hw, hx, hy, -⟩ := hlt
    rw [encodeText, hgroup]
    simp only [List.take, List.map_cons, List.map_nil, List.cons_append, List.nil_append,
      decodeLoop_char hw, decodeLoop_char hx, decodeLoop_char hy, decodeLoop_padding]
    have hoctets := @octets_filled w x y 0 (fun k => if 3 ≤ k then 0 else Function.update
      (Function.update (Function.update cells 0 w) 1 x) 2 y k) a b 0 hgroup rfl rfl rfl rfl
    simp [Decoder.push, Decoder.finish, List.map_take, hoctets]
  | case3 a =>
    obtain ⟨decoded, i, cells⟩ := d
    obtain rfl : i = 0 := hd
    obtain ⟨w, x, hgroup⟩ : ∃ w x, group a 0 0 = [w, x, 0, 0] := ⟨_, _, rfl⟩
    have hlt := group_lt (a := a) (b := 0) (c := 0)
    simp only [hgroup, List.forall_mem_cons] at hlt
    obtain ⟨hw, hx, -⟩ := hlt
    rw [encodeText, hgroup]
    simp only [List.take, List.map_cons, List.map_nil, List.cons_append, List.nil_append,
      decodeLoop_char hw, decodeLoop_char hx, decodeLoop_padding]
    have hoctets := @octets_filled w x 0 0 (fun k => if 2 ≤ k then 0 else Function.update
      (Function.update cells 0 w) 1 x k) a 0 0 hgroup rfl rfl rfl rfl
    simp [Decoder.push, Decoder.finish, List.map_take, hoctets]
  | case4 => simp [decodeLoop, encodeText, Decoder.finish, hd]

theorem base64Decode_encodeText (l : List UInt8) : base64Decode (encodeText l) = l :=
  finish_decodeLoop l _ rfl

/-! Canonical texts are those of a list of bytes. -/

/-- Characters of the alphabet and `pad` characters of padding make whole groups, and the bits
of the last character that stand for no byte are zero. -/
structure Canonical (body : List UInt8) (pad : Nat) : Prop where
  chars : ∀ c ∈ body, c ∈ base64Chars
  pad_le : pad ≤ 2
  groups : (body.length + pad) % 4 = 0
  last : ∀ c ∈ body.getLast?, base64Chars.idxOf c % 4 ^ pad = 0

def canonicalText (body : List UInt8) (pad : Nat) : List UInt8 :=
  body ++ List.replicate pad padding

theorem exists_base64Char {c : UInt8} (hc : c ∈ base64Chars) :
    base64Chars.idxOf c < 64 ∧ base64Char (base64Chars.idxOf c) = c := by
  have hlt : base64Chars.idxOf c < base64Chars.length := List.idxOf_lt_length_of_mem hc
  refine ⟨hlt, ?_⟩
  rw [base64Char, List.getD_eq_getElem _ _ hlt]
  exact List.getElem_idxOf hlt

theorem Canonical.tail {pad : Nat} {p q r s : UInt8} {body : List UInt8}
    (h : Canonical (p :: q :: r :: s :: body) pad) : Canonical body pad where
  chars c hc := h.chars c (by simp [hc])
  pad_le := h.pad_le
  groups := by
    have hgroups := h.groups
    simp only [List.length_cons] at hgroups
    omega
  last c hc := by
    refine h.last c ?_
    rw [Option.mem_def] at hc ⊢
    simp [List.getLast?_cons, hc]

/-- The bytes of a canonical text, four characters at a time. -/
theorem Canonical.exists_encodeText {pad : Nat} : ∀ {body : List UInt8}, Canonical body pad →
    ∃ l, encodeText l = canonicalText body pad ∧ l.length = body.length * 3 / 4
  | [], h => by
    have hgroups := h.groups
    have hle := h.pad_le
    obtain rfl : pad = 0 := by simp at hgroups; omega
    exact ⟨[], rfl, rfl⟩
  | [_], h => by
    have hgroups := h.groups
    have hle := h.pad_le
    simp at hgroups
    omega
  | [p, q], h => by
    obtain rfl : pad = 2 := by
      have hgroups := h.groups
      have hle := h.pad_le
      simp at hgroups
      omega
    obtain ⟨hp, hp'⟩ := exists_base64Char (h.chars p (by simp))
    obtain ⟨hq, hq'⟩ := exists_base64Char (h.chars q (by simp))
    obtain ⟨a, hgroup⟩ := exists_group_one hp hq (h.last q (by simp))
    refine ⟨[a], ?_, by simp⟩
    simp [encodeText, hgroup, hp', hq', canonicalText]
  | [p, q, r], h => by
    obtain rfl : pad = 1 := by
      have hgroups := h.groups
      have hle := h.pad_le
      simp at hgroups
      omega
    obtain ⟨hp, hp'⟩ := exists_base64Char (h.chars p (by simp))
    obtain ⟨hq, hq'⟩ := exists_base64Char (h.chars q (by simp))
    obtain ⟨hr, hr'⟩ := exists_base64Char (h.chars r (by simp))
    obtain ⟨a, b, hgroup⟩ := exists_group_two hp hq hr (h.last r (by simp))
    refine ⟨[a, b], ?_, by simp⟩
    simp [encodeText, hgroup, hp', hq', hr', canonicalText]
  | p :: q :: r :: s :: body, h => by
    obtain ⟨hp, hp'⟩ := exists_base64Char (h.chars p (by simp))
    obtain ⟨hq, hq'⟩ := exists_base64Char (h.chars q (by simp))
    obtain ⟨hr, hr'⟩ := exists_base64Char (h.chars r (by simp))
    obtain ⟨hs, hs'⟩ := exists_base64Char (h.chars s (by simp))
    obtain ⟨a, b, c, hgroup⟩ := exists_group hp hq hr hs
    obtain ⟨l, htext, hlen⟩ := h.tail.exists_encodeText
    refine ⟨a :: b :: c :: l, ?_, ?_⟩
    · simp [encodeText, hgroup, hp', hq', hr', hs', htext, canonicalText]
    · simp only [List.length_cons, hlen]
      omega

/-! Both directions. -/

theorem base64Encode_base64Decode_iff {body : List UInt8} {pad : Nat} (h : Canonical body pad) :
    base64Encode (base64Decode (canonicalText body pad)) = .ok (canonicalText body pad) ↔
      3 * body.length < 2 ^ 33 := by
  obtain ⟨l, htext, hlen⟩ := h.exists_encodeText
  rw [← htext, base64Decode_encodeText, base64Encode_ok_iff, hlen]
  omega

/-- Decoding undoes encoding on texts whose length is an `int`; encoding undoes decoding on the
canonical texts of such texts, and on no others. -/
theorem base64_codec_iff (b body : List UInt8) (pad : Nat) :
    (b.length < 2 ^ 31 →
      ∃ s, base64Encode b = .ok s ∧ base64Decode s = b ∧ s.length = 4 * ((b.length + 2) / 3)) ∧
    (Canonical body pad →
      (base64Encode (base64Decode (canonicalText body pad)) = .ok (canonicalText body pad) ↔
        3 * body.length < 2 ^ 33)) := by
  refine ⟨fun hb => ?_, fun h => base64Encode_base64Decode_iff h⟩
  exact ⟨encodeText b, (base64Encode_ok_iff b).mpr hb, base64Decode_encodeText b,
    length_encodeText b⟩

theorem base64_codec_ma :
    (∃ s, base64Encode (bytes ['M', 'a']) = .ok s ∧ base64Decode s = bytes ['M', 'a'] ∧
      s.length = 4) ∧
    base64Encode (base64Decode (canonicalText (bytes ['T', 'W', 'E']) 1)) =
      .ok (canonicalText (bytes ['T', 'W', 'E']) 1) :=
  ⟨(base64_codec_iff (bytes ['M', 'a']) [] 0).1 (by decide),
    ((base64_codec_iff [] (bytes ['T', 'W', 'E']) 1).2
      ⟨by decide +kernel, by decide, by decide, by decide +kernel⟩).mpr (by decide)⟩

/-- A text that decodes to one byte more than an `int` counts is not encoded again. -/
theorem base64_not_codec :
    ¬ ∀ body pad, Canonical body pad →
      base64Encode (base64Decode (canonicalText body pad)) = .ok (canonicalText body pad) := by
  intro hall
  have hcanonical : Canonical (List.replicate 2863311532 (0x41 : UInt8)) 0 :=
    { chars := by
        intro c hc
        rw [List.eq_of_mem_replicate hc]
        decide +kernel
      pad_le := Nat.zero_le 2
      groups := by rw [List.length_replicate]
      last := fun c _ => Nat.mod_one _ }
  have hlt := (base64Encode_base64Decode_iff hcanonical).mp (hall _ _ hcanonical)
  rw [List.length_replicate] at hlt
  omega

end WylesLibs.Base64
