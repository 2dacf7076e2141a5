import WylesLibs.Datastructures.ArrayCalls

/-! `insert` of no elements, and `remove` past the end. -/
namespace WylesLibs.Datastructures
open Library
variable {T : Type}

namespace Array

/-- Nothing is thrown. -/
def Silent {β : Type} (m : Outcome β) : Prop := ∀ w, m ≠ .thrown w

section
variable {β γ : Type}

theorem silent_ok (b : β) : Silent (.ok b : Outcome β) := fun w h => by cases h

theorem silent_undef : Silent (.undef : Outcome β) := fun w h => by cases h

theorem Silent.bind {m : Outcome β} {f : β → Outcome γ} (hm : Silent m)
    (hf : ∀ b, Silent (f b)) : Silent (m.bind f) := by
  cases m with
  | ok b => exact hf b
  | thrown w => exact absurd rfl (hm w)
  | undef => exact silent_undef
  | timeout => exact fun w h => by cases h

theorem Silent.ite {c : Prop} [Decidable c] {m k : Outcome β} (hm : Silent m) (hk : Silent k) :
    Silent (if c then m else k) := by
  split
  · exact hm
  · exact hk

theorem silent_forCount {turn : Nat → β → Outcome β} (hturn : ∀ i s, Silent (turn i s))
    (i count : Nat) (s : β) : Silent (forCount turn i count s) := by
  induction count generalizing i s with
  | zero => exact silent_ok s
  | succ count ih => exact (hturn i s).bind fun t => ih (i + 1) t

end

theorem silent_load (buffer : List (Option T)) (pos : Nat) : Silent (load buffer pos) := by
  unfold load
  split
  · exact silent_ok _
  · exact silent_undef

theorem silent_addElement (buffer : List (Option T)) (pos : Nat) (el : T) :
    Silent (addElement buffer pos el) := .ite (silent_ok _) silent_undef

theorem silent_copyUpTo (pos : Nat) (source target : List (Option T)) :
    Silent (copyUpTo pos source target) :=
  silent_forCount (fun i s => (silent_load source i).bind fun el => silent_addElement s i el) 0 pos
    target

theorem silent_removed (pos numEls : Nat) (a : Array T) : Silent (removed pos numEls a) := by
  have hup : Silent (upsized (minus a.eSize numEls)) := .ite (silent_ok _) silent_undef
  refine hup.bind fun newCap => Silent.bind (.ite ?_ (silent_ok _)) fun p => ?_
  · exact (silent_copyUpTo pos a.eBuf _).bind fun newBuf => silent_ok _
  · refine (silent_forCount (fun i s => ?_) pos _ p.2.2).bind fun eBuf => silent_ok _
    exact .ite ((silent_load _ _).bind fun el => silent_addElement s i el) (silent_ok s)

section
variable {a : Array T} {l : List T} {pos numEls : Nat}

theorem remove_throws_iff :
    (∃ w, remove pos numEls a = (.thrown w, a)) ↔ a.eSize < (pos + numEls) % sizeRange := by
  constructor
  · intro hcase
    obtain ⟨w, hw⟩ := hcase
    by_contra hle
    rw [remove_of_le (not_lt.mp hle), Call.become] at hw
    cases hr : removed pos numEls a with
    | ok b => simp [hr] at hw
    | thrown v => exact silent_removed pos numEls a v hr
    | undef => simp [hr] at hw
    | timeout => simp [hr] at hw
  · exact fun h => ⟨_, remove_of_lt h⟩

/-- The contents, the size and the capacity are those that there were. -/
def Unchanged (a : Array T) (r : Outcome Unit × Array T) : Prop :=
  r.1 = .ok () ∧ r.2.eBuf = a.eBuf ∧ r.2.eSize = a.eSize ∧ r.2.eCap = a.eCap

/-- The first turn reads from the bucket, which has no cells. -/
theorem insert_nil_of_lt (h : a.Represents l) (hpos : pos < a.eSize) :
    insert pos [] a = (.undef, a) := by
  have hle := h.length_le
  have hsize := h.size
  obtain ⟨n, hn⟩ : ∃ n, a.eSize - pos = n + 1 := ⟨a.eSize - pos - 1, by omega⟩
  have hundef : inserted pos [] a = .undef := by
    rw [inserted, if_neg (by simp; omega), Outcome.bind_ok]
    simp [hn, forCount, insertTurn, load, newCArray]
  rw [insert_of_le hpos.le, Call.become, hundef]

theorem insert_nil_unchanged_iff (h : a.Represents l) (hpos : pos ≤ a.eSize) :
    Unchanged a (insert pos [] a) ↔ pos = a.eSize := by
  constructor
  · intro hu
    by_contra hne
    rw [insert_nil_of_lt h (by omega)] at hu
    cases hu.1
  · rintro rfl
    rw [insert_of_le le_rfl, h.size, Call.become_of_ok (inserted_nil_end h)]
    exact ⟨rfl, rfl, rfl, rfl⟩

end

/-- No elements can be put in at the end only, and a sum of arguments that is too large is found
out unless it wraps to one that is not. -/
theorem boundary_arguments_iff {a : Array T} {l : List T} (h : a.Represents l) :
    (∀ pos ≤ a.eSize, (Unchanged a (insert pos [] a) ↔ pos = a.eSize)) ∧
    ∀ pos numEls, pos < sizeRange → numEls < sizeRange → a.eSize < pos + numEls →
      ((∃ w, remove pos numEls a = (.thrown w, a)) ↔ a.eSize < (pos + numEls) % sizeRange) :=
  ⟨fun _ hpos => insert_nil_unchanged_iff h hpos, fun _ _ _ _ _ => remove_throws_iff⟩

/-- One element, in a buffer that has room for no other. -/
def single : Array Nat := ⟨[some 7], 1, 1, .unsorted⟩

theorem represents_single : Represents single [7] := by
  refine ⟨rfl, fun j el hel => ?_, rfl⟩
  cases j with
  | zero => simpa [single] using hel
  | succ j => simp at hel

theorem boundary_arguments_single :
    (∀ pos ≤ single.eSize, (Unchanged single (insert pos [] single) ↔ pos = 1)) ∧
    ∀ pos numEls, pos < sizeRange → numEls < sizeRange → 1 < pos + numEls →
      ((∃ w, remove pos numEls single = (.thrown w, single)) ↔ 1 < (pos + numEls) % sizeRange) :=
  boundary_arguments_iff represents_single

theorem boundary_arguments_fail :
    (¬ ∀ (a : Array Nat) (l : List Nat), a.Represents l → ∀ pos ≤ a.eSize,
      Unchanged a (insert pos [] a)) ∧
    ¬ ∀ (a : Array Nat) (l : List Nat), a.Represents l → ∀ pos numEls, pos < sizeRange →
      numEls < sizeRange → a.eSize < pos + numEls → ∃ w, remove pos numEls a = (.thrown w, a) := by
  constructor
  · intro h
    have hu := (h single [7] represents_single 0 (by decide)).1
    rw [insert_nil_of_lt represents_single (by decide)] at hu
    cases hu
  · intro h
    obtain ⟨w, hw⟩ := h single [7] represents_single (2 ^ 64 - 1) 1 (by decide) (by decide)
      (by decide)
    have hok : (remove (2 ^ 64 - 1) 1 single).1 = .ok () := rfl
    rw [hw] at hok
    cases hok

end Array
end WylesLibs.Datastructures
