import WylesLibs.Library.Outcome
import WylesLibs.StringUtils

/-! `isValidIPAddress`, and the dotted quads that it is to accept. -/
namespace WylesLibs.Validation
open Library

/-- `isspace` in the locale that a program starts with. -/
def isSpace (c : UInt8) : Bool := c == 0x20 || (0x09 ≤ c && c ≤ 0x0D)

def decimalValue (text : List UInt8) : Nat :=
  text.foldl (fun v c => v * 10 + (c - 0x30).toNat) 0

/-- What `atoi` does with a number that an `int` does not hold is not defined. -/
def asInt (v : Int) : Outcome Int := if -2 ^ 31 ≤ v ∧ v < 2 ^ 31 then .ok v else .undef

def atoi (text : List UInt8) : Outcome Int :=
  match text.dropWhile isSpace with
  | [] => .ok 0
  | c :: rest =>
    if c = Byte.minus then asInt (-decimalValue (rest.takeWhile isDigit))
    else if c = Byte.plus then asInt (decimalValue (rest.takeWhile isDigit))
    else asInt (decimalValue ((c :: rest).takeWhile isDigit))

/-- The loop; `octetStr` is never emptied. -/
def octetLoop : List UInt8 → List UInt8 → Outcome Bool
  | [], _ => .ok true
  | c :: address, octetStr =>
    if c = Byte.dot then
      (atoi octetStr).bind fun octet =>
        if octet < 0 ∨ octet > 255 then .ok false else octetLoop address octetStr
    else octetLoop address (octetStr ++ [c])

def isValidIPAddress (address : List UInt8) : Outcome Bool := octetLoop address []

/-! What is to be accepted. -/

structure Octet (text : List UInt8) : Prop where
  digits : ∀ c ∈ text, isDigit c = true
  length : 1 ≤ text.length ∧ text.length ≤ 3
  value : decimalValue text ≤ 255

structure Quad (address a b c d : List UInt8) : Prop where
  text : address = a ++ Byte.dot :: (b ++ Byte.dot :: (c ++ Byte.dot :: d))
  first : Octet a
  second : Octet b
  third : Octet c
  fourth : Octet d

def DottedQuad (address : List UInt8) : Prop := ∃ a b c d, Quad address a b c d

/-- There is an answer, and it is `true` for the dotted quads. -/
def Right (address : List UInt8) : Prop :=
  ∃ answer, isValidIPAddress address = .ok answer ∧ (answer = true ↔ DottedQuad address)

/-! What is judged: at each dot, all that was read so far but the dots. -/

def readBefore (address : List UInt8) (i : Nat) : List UInt8 :=
  (address.take i).filter (· ≠ Byte.dot)

def InOctet (text : List UInt8) : Prop := ∃ v, atoi text = .ok v ∧ 0 ≤ v ∧ v ≤ 255
def OffOctet (text : List UInt8) : Prop := ∃ v, atoi text = .ok v ∧ (v < 0 ∨ 255 < v)

/-- At some dot the number is too small or too large, and at none before it. -/
def Refused (address : List UInt8) : Prop :=
  ∃ i : Nat, address[i]? = some Byte.dot ∧ OffOctet (readBefore address i) ∧
    ∀ j < i, address[j]? = some Byte.dot → InOctet (readBefore address j)

section
variable {address text pre : List UInt8} {c : UInt8} {i : Nat}

@[simp] theorem readBefore_zero : readBefore address 0 = [] := rfl

theorem readBefore_dot : readBefore (Byte.dot :: address) (i + 1) = readBefore address i := by
  simp [readBefore]

theorem readBefore_cons (hc : c ≠ Byte.dot) :
    readBefore (c :: address) (i + 1) = c :: readBefore address i := by
  simp [readBefore, hc]

theorem octetLoop_dot_of_in (h : InOctet pre) :
    octetLoop (Byte.dot :: address) pre = octetLoop address pre := by
  obtain ⟨v, hv, hlow, hhigh⟩ := h
  rw [octetLoop, if_pos rfl, hv, Outcome.bind_ok, if_neg (by omega)]

theorem octetLoop_dot_of_off (h : OffOctet pre) :
    octetLoop (Byte.dot :: address) pre = .ok false := by
  obtain ⟨v, hv, hoff⟩ := h
  rw [octetLoop, if_pos rfl, hv, Outcome.bind_ok, if_pos (by omega)]

theorem octetLoop_cons (hc : c ≠ Byte.dot) :
    octetLoop (c :: address) pre = octetLoop address (pre ++ [c]) := by
  rw [octetLoop, if_neg hc]

theorem in_or_off_or_undef (text : List UInt8) :
    InOctet text ∨ OffOctet text ∨ atoi text = .undef := by
  have hint : ∀ v, (∃ w, asInt v = .ok w) ∨ asInt v = .undef := by
    intro v
    unfold asInt
    split
    · exact Or.inl ⟨v, rfl⟩
    · exact Or.inr rfl
  have hatoi : (∃ v, atoi text = .ok v) ∨ atoi text = .undef := by
    unfold atoi
    split
    · exact Or.inl ⟨0, rfl⟩
    · split
      · exact hint _
      · split
        · exact hint _
        · exact hint _
  obtain ⟨v, hv⟩ | hundef := hatoi
  · by_cases hrange : 0 ≤ v ∧ v ≤ 255
    · exact Or.inl ⟨v, hv, hrange⟩
    · exact Or.inr (Or.inl ⟨v, hv, by omega⟩)
  · exact Or.inr (Or.inr hundef)

/-- The loop refuses what it finds wrong first. -/
theorem octetLoop_eq_false_iff : octetLoop address pre = .ok false ↔
    ∃ i : Nat, address[i]? = some Byte.dot ∧ OffOctet (pre ++ readBefore address i) ∧
      ∀ j < i, address[j]? = some Byte.dot → InOctet (pre ++ readBefore address j) := by
  induction address generalizing pre with
  | nil => simp [octetLoop]
  | cons c address ih =>
    by_cases hc : c = Byte.dot
    · subst hc
      obtain hin | hoff | hundef := in_or_off_or_undef pre
      · rw [octetLoop_dot_of_in hin, ih]
        constructor
        · intro hcase
          obtain ⟨i, hi, hoff, hbefore⟩ := hcase
          refine ⟨i + 1, by simpa using hi, by rwa [readBefore_dot], ?_⟩
          intro j hj hdot
          cases j with
          | zero => simpa using hin
          | succ j =>
            rw [readBefore_dot]
            exact hbefore j (by omega) (by simpa using hdot)
        · intro hcase
          obtain ⟨i, hi, hoff, hbefore⟩ := hcase
          cases i with
          | zero =>
            obtain ⟨v, hv, hlow, hhigh⟩ := hin
            obtain ⟨w, hw, hoff⟩ := hoff
            rw [readBefore_zero, List.append_nil, hv] at hw
            cases hw
            omega
          | succ i =>
            rw [readBefore_dot] at hoff
            refine ⟨i, by simpa using hi, hoff, fun j hj hdot => ?_⟩
            have h := hbefore (j + 1) (by omega) (by simpa using hdot)
            rwa [readBefore_dot] at h
      · rw [octetLoop_dot_of_off hoff]
        exact iff_of_true rfl ⟨0, rfl, by simpa using hoff, fun j hj => absurd hj (by omega)⟩
      · rw [octetLoop, if_pos rfl, hundef]
        refine iff_of_false (by simp [Outcome.bind]) ?_
        intro hcase
        obtain ⟨i, _, hoff, hbefore⟩ := hcase
        have hnot : ∀ v, atoi (pre ++ []) ≠ .ok v := by simp [hundef]
        cases i with
        | zero =>
          obtain ⟨v, hv, -⟩ := hoff
          exact hnot v hv
        | succ i =>
          obtain ⟨v, hv, -⟩ := hbefore 0 (by omega) rfl
          exact hnot v hv
    · rw [octetLoop_cons hc, ih]
      constructor
      · intro hcase
        obtain ⟨i, hi, hoff, hbefore⟩ := hcase
        refine ⟨i + 1, by simpa using hi, by simpa [readBefore_cons hc] using hoff, ?_⟩
        intro j hj hdot
        cases j with
        | zero => exact absurd (Option.some.inj hdot) hc
        | succ j => simpa [readBefore_cons hc] using hbefore j (by omega) (by simpa using hdot)
      · intro hcase
        obtain ⟨i, hi, hoff, hbefore⟩ := hcase
        cases i with
        | zero => exact absurd (Option.some.inj hi) hc
        | succ i =>
          refine ⟨i, by simpa using hi, by simpa [readBefore_cons hc] using hoff, fun j hj hdot => ?_⟩
          simpa [readBefore_cons hc] using hbefore (j + 1) (by omega) (by simpa using hdot)

/-! The numbers of a dotted quad. -/

theorem isDigit_iff : isDigit c = true ↔ 48 ≤ c.toNat ∧ c.toNat ≤ 57 := by
  simp [isDigit, UInt8.le_iff_toNat_le]

theorem digit_not_dot (h : isDigit c = true) : c ≠ Byte.dot := by
  intro hc
  subst hc
  revert h
  decide

theorem digit_not_space (h : isDigit c = true) : isSpace c = false := by
  have hrange := isDigit_iff.mp h
  simp only [isSpace, Bool.or_eq_false_iff, beq_eq_false_iff_ne, Bool.and_eq_false_iff,
    decide_eq_false_iff_not, UInt8.le_iff_toNat_le, UInt8.toNat_ofNat]
  refine ⟨fun hc => ?_, Or.inr (by omega)⟩
  subst hc
  revert h
  decide

theorem decimalValue_append (text text' : List UInt8) :
    decimalValue text ≤ decimalValue (text ++ text') := by
  have hgrow : ∀ (l : List UInt8) (v : Nat),
      v ≤ l.foldl (fun v c => v * 10 + (c - 0x30).toNat) v := by
    intro l
    induction l with
    | nil => intro v; exact Nat.le_refl v
    | cons c l ih =>
      intro v
      have hstep : v ≤ v * 10 + (c - 0x30).toNat := by omega
      exact hstep.trans (ih _)
  unfold decimalValue
  rw [List.foldl_append]
  exact hgrow text' _

theorem decimalValue_lt (h : ∀ c ∈ text, isDigit c = true) :
    decimalValue text < 10 ^ text.length := by
  induction text using List.reverseRecOn with
  | nil => simp [decimalValue]
  | append_singleton text c ih =>
    have hdigit : (c - 0x30).toNat ≤ 9 := by
      have hrange := isDigit_iff.mp (h c (by simp))
      have hle : (0x30 : UInt8) ≤ c := UInt8.le_iff_toNat_le.mpr hrange.1
      have h48 : (0x30 : UInt8).toNat = 48 := rfl
      rw [UInt8.toNat_sub_of_le _ _ hle, h48]
      omega
    have hrest := ih fun c hc => h c (by simp [hc])
    have hlast : decimalValue (text ++ [c]) = decimalValue text * 10 + (c - 0x30).toNat := by
      simp [decimalValue]
    rw [hlast, List.length_append, List.length_singleton, Nat.pow_succ]
    omega

theorem atoi_digits (h : ∀ c ∈ text, isDigit c = true) (hlen : text.length ≤ 9) :
    atoi text = .ok (decimalValue text) := by
  have hlt : decimalValue text < 10 ^ 9 :=
    (decimalValue_lt h).trans_le (Nat.pow_le_pow_right (by decide) hlen)
  cases text with
  | nil => rfl
  | cons c rest =>
    have hc := h c List.mem_cons_self
    have hminus : c ≠ Byte.minus := by
      intro heq
      subst heq
      revert hc
      decide
    have hplus : c ≠ Byte.plus := by
      intro heq
      subst heq
      revert hc
      decide
    have hdrop : (c :: rest).dropWhile isSpace = c :: rest :=
      List.dropWhile_cons_of_neg (by simp [digit_not_space hc])
    have htake : (c :: rest).takeWhile isDigit = c :: rest := List.takeWhile_eq_self_iff.mpr h
    rw [atoi, hdrop]
    dsimp only
    rw [if_neg hminus, if_neg hplus, htake, asInt, if_pos (by omega)]

theorem octetLoop_append {octet : List UInt8} (h : ∀ c ∈ octet, isDigit c = true) :
    octetLoop (octet ++ address) pre = octetLoop address (pre ++ octet) := by
  induction octet generalizing pre with
  | nil => simp
  | cons c octet ih =>
    have hrest := @ih (pre ++ [c]) fun d hd => h d (List.mem_cons_of_mem c hd)
    rw [List.cons_append, octetLoop_cons (digit_not_dot (h c List.mem_cons_self)), hrest,
      List.append_assoc, List.singleton_append]

/-- At a dot, only the value of the digits so far counts. -/
theorem octetLoop_digits_dot (h : ∀ c ∈ pre, isDigit c = true) (hlen : pre.length ≤ 9) :
    octetLoop (Byte.dot :: address) pre =
      if decimalValue pre ≤ 255 then octetLoop address pre else .ok false := by
  have hatoi := atoi_digits h hlen
  by_cases hle : decimalValue pre ≤ 255
  · rw [if_pos hle]
    exact octetLoop_dot_of_in ⟨_, hatoi, by omega, by omega⟩
  · rw [if_neg hle]
    exact octetLoop_dot_of_off ⟨_, hatoi, by omega⟩

/-- The three first octets are judged as one number. -/
theorem Quad.answer {a b c d : List UInt8} (h : Quad address a b c d) :
    isValidIPAddress address = .ok (decide (decimalValue (a ++ b ++ c) ≤ 255)) := by
  have hab : ∀ x ∈ a ++ b, isDigit x = true :=
    List.forall_mem_append.mpr ⟨h.first.digits, h.second.digits⟩
  have habc : ∀ x ∈ a ++ b ++ c, isDigit x = true :=
    List.forall_mem_append.mpr ⟨hab, h.third.digits⟩
  have hlen : (a ++ b ++ c).length ≤ 9 := by
    have := h.first.length.2
    have := h.second.length.2
    have := h.third.length.2
    simp only [List.length_append]
    omega
  have hlast : octetLoop d (a ++ b ++ c) = .ok true := by
    have happend := @octetLoop_append [] (a ++ b ++ c) d h.fourth.digits
    rwa [List.append_nil] at happend
  have hmid := decimalValue_append (a ++ b) c
  rw [isValidIPAddress, h.text, octetLoop_append h.first.digits, List.nil_append,
    octetLoop_digits_dot h.first.digits (h.first.length.2.trans (by decide)), if_pos h.first.value,
    octetLoop_append h.second.digits, octetLoop_digits_dot hab (by simp at hlen ⊢; omega),
    octetLoop_append h.third.digits, octetLoop_digits_dot habc hlen, hlast]
  by_cases hle : decimalValue (a ++ b ++ c) ≤ 255
  · rw [if_pos hle, if_pos (hmid.trans hle), decide_eq_true hle]
  · rw [if_neg hle, decide_eq_false hle, ite_self]

/-- A quad is accepted if its first three octets, written one after the other, are at most 255; what
is no quad is refused if what stands before some dot is no number up to 255. -/
theorem right_iff (address : List UInt8) :
    Right address ↔
      (∃ a b c d, Quad address a b c d ∧ decimalValue (a ++ b ++ c) ≤ 255) ∨
        ¬ DottedQuad address ∧ Refused address := by
  have hrefused : Refused address ↔ isValidIPAddress address = .ok false :=
    (@octetLoop_eq_false_iff address []).symm
  by_cases hquad : DottedQuad address
  · obtain ⟨a, b, c, d, h⟩ := hquad
    constructor
    · intro hcase
      obtain ⟨answer, hanswer, hright⟩ := hcase
      obtain rfl := hright.mpr ⟨a, b, c, d, h⟩
      have htrue := h.answer.symm.trans hanswer
      exact Or.inl ⟨a, b, c, d, h, of_decide_eq_true (Outcome.ok.inj htrue)⟩
    · intro hcase
      obtain ⟨a, b, c, d, h, hle⟩ | ⟨hnot, -⟩ := hcase
      · refine ⟨true, ?_, iff_of_true rfl ⟨a, b, c, d, h⟩⟩
        rw [h.answer, decide_eq_true hle]
      · exact absurd ⟨a, b, c, d, h⟩ hnot
  · constructor
    · intro hcase
      obtain ⟨answer, hanswer, hright⟩ := hcase
      have hfalse : answer = false := by simpa using mt hright.mp hquad
      exact Or.inr ⟨hquad, hrefused.mpr (hanswer.trans (by rw [hfalse]))⟩
    · intro hcase
      obtain ⟨a, b, c, d, h, -⟩ | ⟨-, href⟩ := hcase
      · exact absurd ⟨a, b, c, d, h⟩ hquad
      · exact ⟨false, hrefused.mp href, iff_of_false Bool.false_ne_true hquad⟩

theorem not_right : ¬ ∀ address, Right address := by
  intro h
  obtain ⟨answer, hanswer, hright⟩ := h []
  have htrue : answer = true := (Outcome.ok.inj hanswer).symm
  obtain ⟨a, b, c, d, hquad⟩ := hright.mp htrue
  have htext := hquad.text
  simp at htext

example : isValidIPAddress [0x31, 0x39, 0x32, Byte.dot, 0x31, 0x36, 0x38, Byte.dot, 0x31, Byte.dot,
    0x31] = .ok false := rfl

end
end WylesLibs.Validation
