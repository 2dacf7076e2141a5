import WylesLibs.Library.Runs
import WylesLibs.KeyGenerator.Codec

/-! `UniqueKeyGenerator` under concurrent calls. One step is the section of a call that the mutex
protects, or what `nextAsInteger` does behind its unlock. -/
namespace WylesLibs.KeyGenerator
open Library
variable {ι : Type}

inductive Key where
  | text (data : List UInt8)
  | integer (value : UInt64)
  deriving DecidableEq

/-- Keys of the two kinds are the same if they are the same in writing. -/
def Key.written : Key → List UInt8
  | .text data => data
  | .integer value => insertHexDigits [] value 8

/-- `unlocked` are the callers that are behind the unlock of `nextAsInteger` and have not yet read
`current`. The fields from `returned` on are not data of the source: which keys were returned, how
many calls there were, and for each key how many there were when it was read. -/
structure State (ι : Type) where
  current : UInt64
  unlocked : List ι
  returned : List Key
  calls : Nat
  drawn : List Nat

/-- A generator whose store answered with `current`. -/
def make (current : UInt64) : State ι := ⟨current, [], [], 0, []⟩

inductive Act (ι : Type) where
  | next (caller : ι)
  | nextAsInteger (caller : ι)
  | read (caller : ι)

def next (s : State ι) : Outcome (State ι) :=
  let current := s.current + 1
  (valToHexCharArray [] current 8).bind fun data =>
    .ok { s with
      current := current
      returned := s.returned ++ [.text data]
      calls := s.calls + 1
      drawn := s.drawn ++ [s.calls + 1] }

/-- `nextAsInteger` up to its unlock. -/
def nextAsInteger (s : State ι) (caller : ι) : State ι :=
  { s with current := s.current + 1, unlocked := caller :: s.unlocked, calls := s.calls + 1 }

/-- `return current`. -/
def readCurrent [DecidableEq ι] (s : State ι) (caller : ι) : State ι :=
  { s with
    unlocked := s.unlocked.erase caller
    returned := s.returned ++ [.integer s.current]
    drawn := s.drawn ++ [s.calls] }

def step [DecidableEq ι] (s : State ι) : Act ι → Option (State ι)
  | .next caller => if caller ∈ s.unlocked then none else (next s).toOption
  | .nextAsInteger caller => if caller ∈ s.unlocked then none else some (nextAsInteger s caller)
  | .read caller => if caller ∈ s.unlocked then some (readCurrent s caller) else none

/-- No two calls returned the same key. -/
def State.Unique (s : State ι) : Prop := (s.returned.map Key.written).Nodup

/-- No call counts on while another one has yet to read what it counted to. -/
def Undisturbed (s : State ι) : Act ι → Prop
  | .read _ => True
  | _ => s.unlocked = []

instance (s : State ι) : (a : Act ι) → Decidable (Undisturbed s a)
  | .read _ => isTrue trivial
  | .next _ | .nextAsInteger _ => inferInstanceAs (Decidable (s.unlocked = []))

/-! What a step does. -/

inductive Turn [DecidableEq ι] (s : State ι) : Act ι → State ι → Prop where
  | next {caller : ι} : Turn s (.next caller)
      { s with
        current := s.current + 1
        returned := s.returned ++ [.text (insertHexDigits [] (s.current + 1) 8)]
        calls := s.calls + 1
        drawn := s.drawn ++ [s.calls + 1] }
  | nextAsInteger {caller : ι} : Turn s (.nextAsInteger caller) (nextAsInteger s caller)
  | read {caller : ι} (h : caller ∈ s.unlocked) : Turn s (.read caller) (readCurrent s caller)

section
variable {s : State ι}

/-- Where the keys come from: each is the value of `current` after a number of calls. -/
structure Counts (start : UInt64) (s : State ι) : Prop where
  current : s.current = start + .ofNat s.calls
  returned : s.returned.map Key.written =
    s.drawn.map fun n => insertHexDigits [] (start + .ofNat n) 8
  drawn : ∀ n ∈ s.drawn, 0 < n ∧ n ≤ s.calls
  calls : s.drawn.length + s.unlocked.length = s.calls

theorem counts_make (start : UInt64) : Counts start (make start : State ι) where
  current := by simp [make]
  returned := rfl
  drawn := by simp [make]
  calls := rfl

/-- The keys are different exactly if the counts they were read at are. -/
theorem Counts.unique_iff {start : UInt64} (hs : Counts start s) (hcalls : s.calls < 2 ^ 64) :
    s.Unique ↔ s.drawn.Nodup := by
  unfold State.Unique
  rw [hs.returned]
  refine ⟨List.Nodup.of_map _, List.Nodup.map_on fun n hn m hm heq => ?_⟩
  have hkey := UInt64.add_right_inj start |>.mp (insertHexDigits_injective heq)
  have hmod := congrArg UInt64.toNat hkey
  have hnlt := (hs.drawn n hn).2
  have hmlt := (hs.drawn m hm).2
  rwa [UInt64.toNat_ofNat', UInt64.toNat_ofNat', Nat.mod_eq_of_lt (by omega),
    Nat.mod_eq_of_lt (by omega)] at hmod

/-- As long as no call disturbs another, at most one of them has yet to read, and what it will
read was not read before. -/
structure Fresh (s : State ι) : Prop where
  nodup : s.drawn.Nodup
  unlocked : s.unlocked = [] ∨ (∃ caller, s.unlocked = [caller]) ∧ s.calls ∉ s.drawn

/-- Two calls read the same count, or there is one that no call will read any more. -/
def State.Spoilt (s : State ι) : Prop :=
  ¬ s.drawn.Nodup ∨ ∃ n, 0 < n ∧ n < s.calls ∧ n ∉ s.drawn

/-- Once all calls have returned, every count was read. -/
theorem Counts.not_spoilt {start : UInt64} (hs : Counts start s) (hunlocked : s.unlocked = [])
    (hnodup : s.drawn.Nodup) : ¬ s.Spoilt := by
  rintro (hdup | ⟨n, hpos, hlt, hmem⟩)
  · exact hdup hnodup
  · have hsub : s.drawn.toFinset ⊆ (Finset.Icc 1 s.calls).erase n := fun m hm => by
      have hm := List.mem_toFinset.mp hm
      obtain ⟨hmpos, hmle⟩ := hs.drawn m hm
      exact Finset.mem_erase.mpr ⟨fun h => hmem (h ▸ hm), Finset.mem_Icc.mpr ⟨hmpos, hmle⟩⟩
    have hcard := Finset.card_le_card hsub
    have hcalls := hs.calls
    rw [List.toFinset_card_of_nodup hnodup,
      Finset.card_erase_of_mem (Finset.mem_Icc.mpr ⟨hpos, hlt.le⟩), Nat.card_Icc] at hcard
    rw [hunlocked, List.length_nil] at hcalls
    omega

end

section
variable [DecidableEq ι] {s t : State ι} {a : Act ι}

theorem turn_of_step (h : step s a = some t) : Turn s a t := by
  cases a with
  | next caller =>
    simp only [step] at h
    split at h
    · cases h
    · cases h
      exact .next
  | nextAsInteger caller =>
    simp only [step] at h
    split at h
    · cases h
    · cases h
      exact .nextAsInteger
  | read caller =>
    simp only [step] at h
    split at h
    · next hmem =>
      cases h
      exact .read hmem
    · cases h

theorem Turn.counts {start : UInt64} (hs : Counts start s) (h : Turn s a t) :
    Counts start t := by
  have hnext : s.current + 1 = start + .ofNat (s.calls + 1) := by
    rw [hs.current, UInt64.ofNat_add, UInt64.add_assoc]
    rfl
  cases h with
  | next =>
    exact {
      current := hnext
      returned := by simp [hs.returned, Key.written, hnext]
      drawn := by
        intro n hn
        obtain hn | hn := List.mem_append.mp hn
        · have := hs.drawn n hn
          exact ⟨this.1, by simp; omega⟩
        · obtain rfl := List.mem_singleton.mp hn
          exact ⟨by omega, le_refl _⟩
      calls := by
        have := hs.calls
        simp
        omega }
  | nextAsInteger =>
    exact {
      current := hnext
      returned := hs.returned
      drawn := fun n hn => ⟨(hs.drawn n hn).1, Nat.le_succ_of_le (hs.drawn n hn).2⟩
      calls := by
        have := hs.calls
        simp [KeyGenerator.nextAsInteger]
        omega }
  | @read caller hmem =>
    have hlen := List.length_erase_of_mem hmem
    have hpos := List.length_pos_of_mem hmem
    exact {
      current := hs.current
      returned := by simp [readCurrent, hs.returned, Key.written, hs.current]
      drawn := by
        intro n hn
        obtain hn | hn := List.mem_append.mp hn
        · exact hs.drawn n hn
        · obtain rfl := List.mem_singleton.mp hn
          have := hs.calls
          exact ⟨by omega, le_refl _⟩
      calls := by
        have := hs.calls
        simp [readCurrent]
        omega }

theorem Turn.fresh {start : UInt64} (hcounts : Counts start s) (hs : Fresh s)
    (hundisturbed : Undisturbed s a) (h : Turn s a t) : Fresh t := by
  have hnew : s.calls + 1 ∉ s.drawn := fun hmem => by
    have := (hcounts.drawn _ hmem).2
    omega
  cases h with
  | next =>
    exact {
      nodup := List.nodup_append.mpr ⟨hs.nodup, List.nodup_singleton _, by
        rintro n hn m hm rfl
        exact hnew (List.mem_singleton.mp hm ▸ hn)⟩
      unlocked := Or.inl hundisturbed }
  | @nextAsInteger caller =>
    have hnil : s.unlocked = [] := hundisturbed
    exact {
      nodup := hs.nodup
      unlocked := Or.inr ⟨⟨caller, by simp [KeyGenerator.nextAsInteger, hnil]⟩, hnew⟩ }
  | @read caller hmem =>
    obtain hnil | ⟨⟨other, hone⟩, hunread⟩ := hs.unlocked
    · simp [hnil] at hmem
    · obtain rfl : caller = other := by simpa [hone] using hmem
      exact {
        nodup := List.nodup_append.mpr ⟨hs.nodup, List.nodup_singleton _, by
          rintro n hn m hm rfl
          exact hunread (List.mem_singleton.mp hm ▸ hn)⟩
        unlocked := Or.inl (by simp [readCurrent, hone]) }

theorem Turn.spoilt (hs : s.Spoilt) (h : Turn s a t) : t.Spoilt := by
  have happend : ∀ m, s.calls ≤ m → ∀ n, n < s.calls → n ∉ s.drawn → n ∉ s.drawn ++ [m] := by
    intro m hm n hn hmem hmem'
    obtain h | h := List.mem_append.mp hmem'
    · exact hmem h
    · have := List.mem_singleton.mp h
      omega
  obtain hdup | ⟨n, hpos, hlt, hmem⟩ := hs
  · left
    cases h with
    | next => exact fun hn => hdup (List.nodup_append.mp hn).1
    | nextAsInteger => exact hdup
    | read => exact fun hn => hdup (List.nodup_append.mp hn).1
  · right
    cases h with
    | next => exact ⟨n, hpos, Nat.lt_succ_of_lt hlt, happend _ (Nat.le_succ _) n hlt hmem⟩
    | nextAsInteger => exact ⟨n, hpos, Nat.lt_succ_of_lt hlt, hmem⟩
    | read => exact ⟨n, hpos, hlt, happend _ (le_refl _) n hlt hmem⟩

/-- A call that disturbs another makes it skip a count. -/
theorem Turn.spoils {start : UInt64} (hs : Counts start s) (hdisturbed : ¬ Undisturbed s a)
    (h : Turn s a t) : t.Spoilt := by
  have hunlocked : s.unlocked ≠ [] := by
    cases h with
    | read => exact absurd trivial hdisturbed
    | _ => exact hdisturbed
  have hlen : s.drawn.length < s.calls := by
    have := hs.calls
    have := List.length_pos_of_ne_nil hunlocked
    omega
  have hmissing : ∃ n, 0 < n ∧ n ≤ s.calls ∧ n ∉ s.drawn := by
    by_contra hall
    push Not at hall
    have hsub : Finset.Icc 1 s.calls ⊆ s.drawn.toFinset := fun n hn => by
      rw [Finset.mem_Icc] at hn
      exact List.mem_toFinset.mpr (hall n hn.1 hn.2)
    have hcard := (Finset.card_le_card hsub).trans s.drawn.toFinset_card_le
    rw [Nat.card_Icc] at hcard
    omega
  obtain ⟨n, hpos, hle, hmem⟩ := hmissing
  right
  cases h with
  | next =>
    refine ⟨n, hpos, Nat.lt_succ_of_le hle, fun hmem' => ?_⟩
    obtain h | h := List.mem_append.mp hmem'
    · exact hmem h
    · have := List.mem_singleton.mp h
      omega
  | nextAsInteger => exact ⟨n, hpos, Nat.lt_succ_of_le hle, hmem⟩
  | read => exact absurd trivial hdisturbed

/-- However the calls overlap: if none counts on while another has yet to read, all keys are
different in every state, and once all calls have returned they are different only then. -/
theorem unique_iff_undisturbed {start : UInt64} {acts : List (Act ι)}
    (h : Library.run step (make start) acts = some s) (hcalls : s.calls < 2 ^ 64) :
    (Along step Undisturbed (make start) acts → s.Unique) ∧
      (s.unlocked = [] → s.Unique → Along step Undisturbed (make start) acts) := by
  have hcounts : Counts start s :=
    invariant_of_run (fun _ _ _ hs h => (turn_of_step h).counts hs) (counts_make start) h
  constructor
  · intro halong
    have hfresh := invariant_of_along (I := fun s => Counts start s ∧ Fresh s)
      (fun _ _ _ hs hp h => ⟨(turn_of_step h).counts hs.1, (turn_of_step h).fresh hs.1 hs.2 hp⟩)
      ⟨counts_make start, List.nodup_nil, Or.inl rfl⟩ halong h
    exact (hcounts.unique_iff hcalls).mpr hfresh.2.nodup
  · intro hunlocked hunique
    exact along_of_end (fun _ _ _ hs h => (turn_of_step h).counts hs)
      (fun _ _ _ hs hp h => (turn_of_step h).spoils hs hp)
      (fun _ _ _ _ hs h => (turn_of_step h).spoilt hs) (counts_make start) h
      (hcounts.not_spoilt hunlocked ((hcounts.unique_iff hcalls).mp hunique))

end

/-- Two calls, one for each kind of key, that do not overlap. -/
theorem unique_in_turn : ∃ s : State Nat, Library.run step (make 0)
      [.nextAsInteger 1, .read 1, .next 2] = some s ∧ s.unlocked = [] ∧
    (Along step Undisturbed (make 0) [Act.nextAsInteger 1, .read 1, .next 2] → s.Unique) ∧
      (s.unlocked = [] → s.Unique →
        Along step Undisturbed (make 0) [Act.nextAsInteger 1, .read 1, .next 2]) := by
  have hrun : ((Library.run step (make 0) [Act.nextAsInteger 1, .read 1, .next 2]).map
      fun s => (s.unlocked, s.calls)) = some ([], 2) := by decide +kernel
  obtain ⟨s, hs, hfields⟩ := Option.map_eq_some_iff.mp hrun
  obtain ⟨hunlocked, hcalls⟩ := Prod.mk.inj hfields
  exact ⟨s, hs, hunlocked, unique_iff_undisturbed hs (by rw [hcalls]; decide)⟩

/-- The second caller counts on before the first one reads. -/
theorem not_unique_overlapping : ∃ s : State Nat, Library.run step (make 0)
      [.nextAsInteger 1, .nextAsInteger 2, .read 1, .read 2] = some s ∧ s.calls = 2 ∧
    ¬ s.Unique := by
  have hrun : ((Library.run step (make 0)
      [Act.nextAsInteger 1, .nextAsInteger 2, .read 1, .read 2]).map
      fun s => (s.returned, s.calls)) = some ([.integer 2, .integer 2], 2) := by decide +kernel
  obtain ⟨s, hs, hfields⟩ := Option.map_eq_some_iff.mp hrun
  obtain ⟨hreturned, hcalls⟩ := Prod.mk.inj hfields
  refine ⟨s, hs, hcalls, ?_⟩
  simp [State.Unique, hreturned]

end WylesLibs.KeyGenerator
