import WylesLibs.EStream.RegularFile
import WylesLibs.KeyGenerator.Generator

/-! One store under one process after another. A process starts a generator, draws keys from it,
and either stops, so that the generator's destructor writes the store, or crashes. -/
namespace WylesLibs.KeyGenerator.Store
open Library WylesLibs.Stream

/-- `UniqueKeyGeneratorStore::refresh` of a zero, on a file that may be missing. -/
def refresh (file : Option (List UInt8)) : Outcome UInt64 :=
  match file with
  | none => .ok 0
  | some content =>
    (EStream.ofFd (.ofFile readerRecommendedBufSize content) readerRecommendedBufSize).bind fun r =>
      (KeyGenerator.refresh 0 r).bind fun p => .ok p.1

/-- A generator, and how many keys it has returned since it was made. -/
structure Running where
  current : UInt64
  calls : Nat

/-- `lost` is not data of the source: it says that a process which had returned keys has crashed
before its destructor opened the file. -/
structure State where
  file : Option (List UInt8)
  running : Option Running
  keys : List Key
  lost : Bool

def start (file : Option (List UInt8)) : State := ⟨file, none, [], false⟩

/-- A process crashes before its destructor opens the file, or after that, when `written` bytes
have got there. -/
inductive Act where
  | start
  | next
  | nextAsInteger
  | stop
  | crash
  | crashWriting (written : Nat)

/-- What the destructor writes. -/
def flushed (current : UInt64) : List UInt8 := insertHexDigits [] current 8

def draw (s : State) (r : Running) (key : UInt64 → Key) : State :=
  { s with
    running := some ⟨r.current + 1, r.calls + 1⟩
    keys := s.keys ++ [key (r.current + 1)] }

/-- A constructor that throws leaves no generator. -/
def step (s : State) : Act → Option State
  | .start =>
    match s.running with
    | some _ => none
    | none =>
      match refresh s.file with
      | .ok current => some { s with running := some ⟨current, 0⟩ }
      | _ => some s
  | .next => s.running.map fun r => draw s r fun current => .text (insertHexDigits [] current 8)
  | .nextAsInteger => s.running.map fun r => draw s r .integer
  | .stop => s.running.map fun r => { s with file := some (flushed r.current), running := none }
  | .crash => s.running.map fun r => { s with running := none, lost := s.lost || decide (r.calls ≠ 0) }
  | .crashWriting written => s.running.map fun r =>
    { s with file := some ((flushed r.current).take written), running := none }

def State.Unique (s : State) : Prop := (s.keys.map Key.written).Nodup

/-- No key is drawn once keys are lost. -/
def Kept (s : State) : Act → Prop
  | .next | .nextAsInteger => s.lost = false
  | _ => True

instance (s : State) : (a : Act) → Decidable (Kept s a)
  | .next | .nextAsInteger => inferInstanceAs (Decidable (s.lost = false))
  | .start | .stop | .crash | .crashWriting _ => isTrue trivial

/-! What the store reads back. -/

theorem refreshLoop_inFile {n : Nat} {current value : UInt64} {l l' : List UInt8}
    {s : EStream UInt8} (hs : s.InFile l) (h : refreshLoop n current l = .ok (value, l')) :
    ∃ s', refreshLoop n current s = .ok (value, s') := by
  induction n generalizing current l s with
  | zero =>
    cases h
    exact ⟨s, rfl⟩
  | succ n ih =>
    cases l with
    | nil => cases h
    | cons byte l =>
      obtain ⟨s', hget, hs'⟩ := hs.get_cons
      have hget' : (get : Prog (EStream UInt8) UInt8) s = .ok (byte, s') := hget
      simp only [refreshLoop, Prog.bind_apply, get_list_cons, Outcome.bind_ok, Prog.lift_apply,
        hget'] at h ⊢
      cases hshift : shiftIn current byte with
      | ok current' =>
        rw [hshift] at h
        exact ih hs' h
      | thrown w => rw [hshift] at h; cases h
      | undef => rw [hshift] at h; cases h
      | timeout => rw [hshift] at h; cases h

theorem settled_shiftIn (current : UInt64) (byte : UInt8) : (shiftIn current byte).Settled :=
  .ite (Outcome.settled_ok _) (.ite (Outcome.settled_ok _) (Outcome.settled_thrown _))

/-- Too short a file is not read. -/
theorem refreshLoop_short {n : Nat} {current : UInt64} {l : List UInt8} {s : EStream UInt8}
    (hs : s.InFile l) (hn : l.length < n) : ∃ w, refreshLoop n current s = .thrown w := by
  induction n generalizing current l s with
  | zero => exact absurd hn (Nat.not_lt_zero _)
  | succ n ih =>
    cases l with
    | nil =>
      have hget : (get : Prog (EStream UInt8) UInt8) s = .thrown "Read error." := hs.get_nil
      exact ⟨"Read error.", by simp [refreshLoop, hget]⟩
    | cons byte l =>
      obtain ⟨s', hget, hs'⟩ := hs.get_cons
      have hget' : (get : Prog (EStream UInt8) UInt8) s = .ok (byte, s') := hget
      simp only [refreshLoop, Prog.bind_apply, Outcome.bind_ok, Prog.lift_apply, hget']
      cases hshift : shiftIn current byte with
      | ok current' => exact ih hs' (Nat.lt_of_succ_lt_succ hn)
      | thrown w => exact ⟨w, rfl⟩
      | undef => exact absurd hshift (settled_shiftIn current byte).1
      | timeout => exact absurd hshift (settled_shiftIn current byte).2

theorem refresh_flushed (current : UInt64) : refresh (some (flushed current)) = .ok current := by
  obtain ⟨s, hs, hfile⟩ := @EStream.InFile.ofFile _ _ readerRecommendedBufSize (by decide)
    (flushed current)
  have hread := refresh_insertHexDigits current []
  rw [List.append_nil] at hread
  obtain ⟨s', hs'⟩ := refreshLoop_inFile hfile hread
  simp only [refresh, hs, Outcome.bind_ok, KeyGenerator.refresh, hs']

/-- A file that was only partly written is not read. -/
theorem refresh_take (current : UInt64) {written : Nat} (h : written < 16) (value : UInt64) :
    refresh (some ((flushed current).take written)) ≠ .ok value := by
  obtain ⟨s, hs, hfile⟩ := @EStream.InFile.ofFile _ _ readerRecommendedBufSize (by decide)
    ((flushed current).take written)
  have hlen : ((flushed current).take written).length < 16 := by
    rw [List.length_take]
    omega
  obtain ⟨w, hw⟩ := @refreshLoop_short _ 0 _ _ hfile hlen
  simp [refresh, hs, KeyGenerator.refresh, hw]

theorem take_flushed (current : UInt64) {written : Nat} (h : 16 ≤ written) :
    (flushed current).take written = flushed current :=
  List.take_of_length_le ((length_insertHexDigits 8 current).trans_le h)

/-! Where the keys come from. -/

/-- The writing of the `n`-th key after `base`. -/
def written (base : UInt64) (n : Nat) : List UInt8 := insertHexDigits [] (base + .ofNat (n + 1)) 8

/-- The keys are those after `base`, one after the other. The generator, or the file when there is
none, stands at the `m`-th of them: at the last one unless keys were lost. -/
structure Tracks (base : UInt64) (s : State) (m : Nat) : Prop where
  keys : s.keys.map Key.written = (List.range s.keys.length).map (written base)
  kept : s.lost = false → m = s.keys.length
  behind : s.lost = true → m < s.keys.length
  file : s.running = none → ∀ value, refresh s.file = .ok value → value = base + .ofNat m
  current : ∀ r ∈ s.running, r.current = base + .ofNat m
  unchanged : ∀ r ∈ s.running, r.calls = 0 → refresh s.file = .ok r.current
  stale : ∀ r ∈ s.running, r.calls ≠ 0 → ∃ k < m, refresh s.file = .ok (base + .ofNat k)

/-- Where a file stands that can be read. -/
def baseOf (file : Option (List UInt8)) : UInt64 :=
  match refresh file with
  | .ok value => value
  | _ => 0

theorem tracks_start (file : Option (List UInt8)) : Tracks (baseOf file) (start file) 0 where
  keys := rfl
  kept _ := rfl
  behind h := by cases h
  file _ value h := by
    have h : refresh file = .ok value := h
    simp [baseOf, h]
  current _ h := by cases h
  unchanged _ h := by cases h
  stale _ h := by cases h

/-- What a step does. -/
inductive Turn (s : State) : Act → State → Prop where
  | started {current : UInt64} (h : s.running = none) (hread : refresh s.file = .ok current) :
      Turn s .start { s with running := some ⟨current, 0⟩ }
  | refused : Turn s .start s
  | drawn {a : Act} {r : Running} {key : UInt64 → Key} (h : s.running = some r)
      (hkey : ∀ current, (key current).written = insertHexDigits [] current 8)
      (hdraws : Kept s a ↔ s.lost = false) : Turn s a (draw s r key)
  | stopped {a : Act} {r : Running} (h : s.running = some r) (hdraws : Kept s a) :
      Turn s a { s with file := some (flushed r.current), running := none }
  | crashed {r : Running} (h : s.running = some r) :
      Turn s .crash { s with running := none, lost := s.lost || decide (r.calls ≠ 0) }
  | torn {a : Act} {r : Running} {file : List UInt8} (h : s.running = some r) (hdraws : Kept s a)
      (hfile : ∀ value, refresh (some file) ≠ .ok value) :
      Turn s a { s with file := some file, running := none }

section
variable {base : UInt64} {s t : State} {a : Act} {m : Nat}

theorem turn_of_step (h : step s a = some t) : Turn s a t := by
  cases a with
  | start =>
    cases hrunning : s.running with
    | some r => simp [step, hrunning] at h
    | none =>
      simp only [step, hrunning] at h
      split at h
      · rename_i current hread
        cases h
        exact .started hrunning hread
      · cases h
        exact .refused
  | next =>
    obtain ⟨r, hrunning, rfl⟩ := Option.map_eq_some_iff.mp h
    exact .drawn hrunning (fun _ => rfl) Iff.rfl
  | nextAsInteger =>
    obtain ⟨r, hrunning, rfl⟩ := Option.map_eq_some_iff.mp h
    exact .drawn hrunning (fun _ => rfl) Iff.rfl
  | stop =>
    obtain ⟨r, hrunning, rfl⟩ := Option.map_eq_some_iff.mp h
    exact .stopped hrunning trivial
  | crash =>
    obtain ⟨r, hrunning, rfl⟩ := Option.map_eq_some_iff.mp h
    exact .crashed hrunning
  | crashWriting written =>
    obtain ⟨r, hrunning, rfl⟩ := Option.map_eq_some_iff.mp h
    obtain hlt | hge := Nat.lt_or_ge written 16
    · exact .torn hrunning trivial (refresh_take r.current hlt)
    · rw [take_flushed r.current hge]
      exact .stopped hrunning trivial

theorem ofNat_succ (base : UInt64) (m : Nat) : base + .ofNat m + 1 = base + .ofNat (m + 1) := by
  rw [UInt64.ofNat_add, UInt64.add_assoc]
  rfl

/-- A step that draws no key after a loss keeps track. -/
theorem Turn.tracks (hs : Tracks base s m) (hkept : Kept s a) (h : Turn s a t) :
    ∃ m', Tracks base t m' := by
  cases h with
  | @started current hrunning hread =>
    refine ⟨m, hs.keys, hs.kept, hs.behind, by simp, ?_, ?_, ?_⟩
    · rintro r ⟨⟩
      exact hs.file hrunning _ hread
    · rintro r ⟨⟩ -
      exact hread
    · rintro r ⟨⟩ h
      exact absurd rfl h
  | refused => exact ⟨m, hs⟩
  | @drawn _ r key hrunning hkey hdraws =>
    have hlost := hdraws.mp hkept
    have hm := hs.kept hlost
    have hcurrent : r.current + 1 = base + .ofNat (m + 1) := by
      rw [hs.current r hrunning, ofNat_succ]
    refine ⟨m + 1, ?_, ?_, ?_, by simp [draw], ?_, ?_, ?_⟩
    · simp only [draw, List.map_append, hs.keys, List.length_append, List.length_singleton,
        List.range_succ, List.map_singleton, hkey, hcurrent, hm, written]
    · intro _
      simp [draw, hm]
    · intro h
      simp [draw, hlost] at h
    · rintro r' ⟨⟩
      exact hcurrent
    · rintro r' ⟨⟩ h
      cases h
    · rintro r' ⟨⟩ -
      by_cases hcalls : r.calls = 0
      · exact ⟨m, Nat.lt_succ_self m, by
          simp only [draw]
          rw [hs.unchanged r hrunning hcalls, hs.current r hrunning]⟩
      · obtain ⟨k, hk, hread⟩ := hs.stale r hrunning hcalls
        exact ⟨k, Nat.lt_succ_of_lt hk, hread⟩
  | @stopped _ r hrunning =>
    refine ⟨m, hs.keys, hs.kept, hs.behind, fun _ value h => ?_, by simp, by simp, by simp⟩
    have h : refresh (some (flushed r.current)) = .ok value := h
    rw [refresh_flushed, hs.current r hrunning] at h
    exact (Outcome.ok.inj h).symm
  | @crashed r hrunning =>
    by_cases hcalls : r.calls = 0
    · refine ⟨m, hs.keys, ?_, ?_, fun _ value h => ?_, by simp, by simp, by simp⟩
      · simpa [hcalls] using hs.kept
      · simpa [hcalls] using hs.behind
      · have h : refresh s.file = .ok value := h
        rw [hs.unchanged r hrunning hcalls, hs.current r hrunning] at h
        exact (Outcome.ok.inj h).symm
    · obtain ⟨k, hk, hread⟩ := hs.stale r hrunning hcalls
      have hle : m ≤ s.keys.length := by
        cases hlost : s.lost with
        | false => exact (hs.kept hlost).le
        | true => exact (hs.behind hlost).le
      refine ⟨k, hs.keys, ?_, ?_, fun _ value h => ?_, by simp, by simp, by simp⟩
      · simp [hcalls]
      · exact fun _ => hk.trans_le hle
      · have h : refresh s.file = .ok value := h
        rw [hread] at h
        exact (Outcome.ok.inj h).symm
  | @torn _ r file hrunning _ hfile =>
    exact ⟨m, hs.keys, hs.kept, hs.behind, fun _ value h => absurd h (hfile value), by simp, by simp,
      by simp⟩

/-- A key that is drawn after a loss was returned before. -/
theorem Turn.spoils (hs : Tracks base s m) (hkept : ¬ Kept s a) (h : Turn s a t) : ¬ t.Unique := by
  cases h with
  | @drawn _ r key hrunning hkey hdraws =>
    have hlost : s.lost = true := by simpa using mt hdraws.mpr hkept
    have hm := hs.behind hlost
    intro hunique
    have hwritten : (draw s r key).keys.map Key.written =
        (List.range s.keys.length).map (written base) ++ [written base m] := by
      simp only [draw, List.map_append, hs.keys, List.map_singleton, hkey, written,
        hs.current r hrunning, ofNat_succ]
    unfold State.Unique at hunique
    rw [hwritten] at hunique
    exact (List.nodup_append.mp hunique).2.2 _
      (List.mem_map.mpr ⟨m, List.mem_range.mpr hm, rfl⟩) _ (by simp) rfl
  | started => exact absurd trivial hkept
  | refused => exact absurd trivial hkept
  | stopped _ hdraws => exact absurd hdraws hkept
  | crashed => exact absurd trivial hkept
  | torn _ hdraws => exact absurd hdraws hkept

theorem Turn.not_unique (hs : ¬ s.Unique) (h : Turn s a t) : ¬ t.Unique := by
  cases h with
  | drawn =>
    intro hunique
    refine hs (List.Nodup.sublist ?_ hunique)
    simp [draw]
  | _ => exact hs

/-- As many keys as there are values of a `uint64_t` are different, and no more. -/
theorem Tracks.unique_iff (hs : Tracks base s m) : s.Unique ↔ s.keys.length ≤ 2 ^ 64 := by
  unfold State.Unique
  rw [hs.keys]
  constructor
  · intro hnodup
    by_contra hlong
    have hinj := List.inj_on_of_nodup_map hnodup
      (List.mem_range.mpr (by omega : 0 < s.keys.length))
      (List.mem_range.mpr (by omega : 2 ^ 64 < s.keys.length))
    exact absurd (hinj (by simp [written])) (by simp)
  · intro hle
    refine List.Nodup.map_on (fun n hn k hk heq => ?_) (List.nodup_range)
    have hkey := UInt64.add_right_inj base |>.mp (insertHexDigits_injective heq)
    have hmod := congrArg UInt64.toNat hkey
    rw [List.mem_range] at hn hk
    rw [UInt64.toNat_ofNat', UInt64.toNat_ofNat'] at hmod
    omega

end

/-- Over one process after another, whatever the file held at first: the keys are all different
exactly if none is drawn once keys were lost in a crash and there are no more than `2 ^ 64`. -/
theorem unique_iff_kept {file : Option (List UInt8)} {acts : List Act} {s : State}
    (h : Library.run step (start file) acts = some s) :
    s.Unique ↔ Along step Kept (start file) acts ∧ s.keys.length ≤ 2 ^ 64 := by
  have hkept : Along step Kept (start file) acts → ∃ m, Tracks (baseOf file) s m := fun halong =>
    invariant_of_along (I := fun s => ∃ m, Tracks (baseOf file) s m)
      (fun _ _ _ ⟨_, hs⟩ hp h => (turn_of_step h).tracks hs hp) ⟨0, tracks_start file⟩ halong h
  constructor
  · intro hunique
    have halong : Along step Kept (start file) acts := by
      refine along_of_end (I := fun s => (∃ m, Tracks (baseOf file) s m) ∨ ¬ s.Unique)
        (B := fun s => ¬ s.Unique) ?_ ?_ ?_ (Or.inl ⟨0, tracks_start file⟩) h (not_not.mpr hunique)
      · rintro s a t (⟨m, hs⟩ | hs) hstep
        · by_cases hp : Kept s a
          · exact Or.inl ((turn_of_step hstep).tracks hs hp)
          · exact Or.inr ((turn_of_step hstep).spoils hs hp)
        · exact Or.inr ((turn_of_step hstep).not_unique hs)
      · rintro s a t (⟨m, hs⟩ | hs) hp hstep
        · exact (turn_of_step hstep).spoils hs hp
        · exact (turn_of_step hstep).not_unique hs
      · rintro s a t - hs hstep
        exact (turn_of_step hstep).not_unique hs
    obtain ⟨m, htracks⟩ := hkept halong
    exact ⟨halong, htracks.unique_iff.mp hunique⟩
  · rintro ⟨halong, hlen⟩
    obtain ⟨m, htracks⟩ := hkept halong
    exact htracks.unique_iff.mpr hlen

theorem unique_while_kept : ∃ s : State, Library.run step (start none)
      [.start, .next, .stop, .start, .crash, .start, .nextAsInteger] = some s ∧
    (Along step Kept (start none) [Act.start, .next, .stop, .start, .crash, .start, .nextAsInteger] →
      s.keys.length ≤ 2 ^ 64 → s.Unique) ∧
    (s.Unique →
      Along step Kept (start none)
        [Act.start, .next, .stop, .start, .crash, .start, .nextAsInteger]) := by
  have hrun : ((Library.run step (start none)
      [Act.start, .next, .stop, .start, .crash, .start, .nextAsInteger]).map
      fun s => s.keys.length) = some 2 := by decide +kernel
  obtain ⟨s, hs, -⟩ := Option.map_eq_some_iff.mp hrun
  exact ⟨s, hs, fun halong hlen => (unique_iff_kept hs).mpr ⟨halong, hlen⟩,
    fun hunique => ((unique_iff_kept hs).mp hunique).1⟩

/-- The store still holds nothing when the second process starts. -/
theorem not_unique_crashed : ∃ s : State, Library.run step (start none)
      [.start, .next, .crash, .start, .next] = some s ∧ ¬ s.Unique := by
  have hrun : ((Library.run step (start none) [Act.start, .next, .crash, .start, .next]).map
      fun s => s.keys.map Key.written) =
        some [insertHexDigits [] 1 8, insertHexDigits [] 1 8] := by decide +kernel
  obtain ⟨s, hs, hkeys⟩ := Option.map_eq_some_iff.mp hrun
  refine ⟨s, hs, ?_⟩
  simp [State.Unique, hkeys]

end WylesLibs.KeyGenerator.Store
