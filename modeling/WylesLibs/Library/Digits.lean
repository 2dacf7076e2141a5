import Mathlib

/-! Digits of a number to a base, the most significant first and as many as are asked for. -/
namespace WylesLibs.Library
variable {b k m n : Nat}

def digits (b : Nat) : Nat → Nat → List Nat
  | 0, _ => []
  | k + 1, n => n / b ^ k :: digits b k (n % b ^ k)

/-- How many digits a number has. -/
def numDigits (b n : Nat) : Nat := Nat.log b n + 1

@[simp] theorem length_digits (b k n : Nat) : (digits b k n).length = k := by
  induction k generalizing n with
  | zero => rfl
  | succ k ih => simp [digits, ih]

theorem digits_lt (hb : 0 < b) (hn : n < b ^ k) : ∀ d ∈ digits b k n, d < b := by
  induction k generalizing n with
  | zero => simp [digits]
  | succ k ih =>
    have hhead : n / b ^ k < b := by
      rw [Nat.div_lt_iff_lt_mul (Nat.pow_pos hb)]
      rwa [Nat.pow_succ, Nat.mul_comm] at hn
    exact List.forall_mem_cons.mpr ⟨hhead, ih (Nat.mod_lt _ (Nat.pow_pos hb))⟩

/-- A number that fits into fewer digits starts with zeros. -/
theorem digits_add (hb : 0 < b) (hn : n < b ^ m) (j : Nat) :
    digits b (m + j) n = List.replicate j 0 ++ digits b m n := by
  induction j with
  | zero => simp
  | succ j ih =>
    have hlt : n < b ^ (m + j) := Nat.lt_of_lt_of_le hn (Nat.pow_le_pow_right hb (by omega))
    rw [← Nat.add_assoc, digits, Nat.div_eq_of_lt hlt, Nat.mod_eq_of_lt hlt, ih,
      List.replicate_succ]
    rfl

theorem digits_of_le (hb : 0 < b) (hn : n < b ^ m) (hm : m ≤ k) :
    digits b k n = List.replicate (k - m) 0 ++ digits b m n := by
  obtain ⟨j, rfl⟩ := Nat.exists_eq_add_of_le hm
  rw [digits_add hb hn, Nat.add_sub_cancel_left]

theorem foldl_digits (hn : n < b ^ k) (v : Nat) :
    (digits b k n).foldl (fun v d => v * b + d) v = v * b ^ k + n := by
  induction k generalizing n v with
  | zero =>
    obtain rfl : n = 0 := by simpa using hn
    simp [digits]
  | succ k ih =>
    have hpow : 0 < b ^ k := by
      obtain hz | hz := Nat.eq_zero_or_pos (b ^ k)
      · rw [Nat.pow_succ, hz, Nat.zero_mul] at hn
        omega
      · exact hz
    rw [digits, List.foldl_cons, ih (Nat.mod_lt _ hpow), Nat.pow_succ]
    calc (v * b + n / b ^ k) * b ^ k + n % b ^ k
        = v * (b ^ k * b) + (b ^ k * (n / b ^ k) + n % b ^ k) := by ring
      _ = v * (b ^ k * b) + n := by rw [Nat.div_add_mod]

theorem lt_pow_numDigits (hb : 1 < b) (n : Nat) : n < b ^ numDigits b n :=
  Nat.lt_pow_succ_log_self hb n

theorem numDigits_le (hk : 0 < k) (hn : n < b ^ k) : numDigits b n ≤ k := by
  by_cases hz : n = 0
  · subst hz
    simp only [numDigits, Nat.log_zero_right]
    omega
  · exact Nat.log_lt_of_lt_pow hz hn

/-- The digits of a number as they are written, without zeros in front. -/
def canonicalDigits (b n : Nat) : List Nat := if n = 0 then [0] else (Nat.digits b n).reverse

theorem ofDigits_reverse_digits (hn : n < b ^ k) : Nat.ofDigits b (digits b k n).reverse = n := by
  have hfold := foldl_digits hn 0
  rw [Nat.zero_mul, Nat.zero_add] at hfold
  rw [Nat.ofDigits_eq_foldr, List.foldr_reverse]
  simpa [Nat.add_comm, Nat.mul_comm] using hfold

theorem digits_numDigits (hb : 1 < b) (n : Nat) : digits b (numDigits b n) n = canonicalDigits b n := by
  unfold canonicalDigits
  split
  · rename_i hz
    subst hz
    simp [numDigits, digits]
  · rename_i hne
    have hlt := lt_pow_numDigits hb n
    have hpow : b ^ Nat.log b n ≤ n := Nat.pow_log_le_self b hne
    have hlead : n / b ^ Nat.log b n ≠ 0 :=
      (Nat.div_pos hpow (Nat.pow_pos (by omega))).ne'
    have hdigits : Nat.digits b n = (digits b (numDigits b n) n).reverse := by
      conv_lhs => rw [← ofDigits_reverse_digits hlt]
      refine Nat.digits_ofDigits b hb _ ?_ ?_
      · intro d hd
        exact digits_lt (by omega) hlt d (List.mem_reverse.mp hd)
      · intro hne'
        simpa [numDigits, digits] using hlead
    rw [hdigits, List.reverse_reverse]

theorem length_canonicalDigits (hb : 1 < b) (n : Nat) :
    (canonicalDigits b n).length = numDigits b n := by
  rw [← digits_numDigits hb, length_digits]

theorem canonicalDigits_lt (hb : 1 < b) (n : Nat) : ∀ d ∈ canonicalDigits b n, d < b := by
  rw [← digits_numDigits hb]
  exact digits_lt (by omega) (lt_pow_numDigits hb n)

end WylesLibs.Library
