import WylesLibs.Library.Runs
import WylesLibs.Memory.Refinement

/-! What clients may rely on, whatever they allocate and free: blocks that are apart and lie in the
pool, and pointers to blocks of the size that was asked for. -/
namespace WylesLibs.Memory
open Library List

/-- A call of a client. -/
inductive Act where
  | emalloc (size : UInt64)
  | efree (ptr : Option UInt32)

/-- `live` are the allocations that clients have not yet given back. -/
structure Session where
  allocator : Allocator
  live : List Block

def Session.start : Session := ⟨.start, []⟩

/-- The live allocations once `emalloc` has answered with `ptr`. -/
def Session.plus (s : Session) (ptr : Option UInt32) (size : UInt64) : List Block :=
  match ptr with
  | none => s.live
  | some ptr => ⟨ptr.toNat, size.toNat⟩ :: s.live

/-- The live allocations once `efree` was called with `ptr`. -/
def Session.minus (s : Session) (ptr : Option UInt32) : List Block :=
  match ptr with
  | none => s.live
  | some ptr => s.live.eraseP fun b => decide (b.index = ptr.toNat)

def step (n : Nat) (s : Session) : Act → Option Session
  | .emalloc size =>
    (emalloc n size s.allocator).toOption.map fun (ptr, m) => ⟨m, s.plus ptr size⟩
  | .efree ptr => (efree n ptr s.allocator).toOption.map fun m => ⟨m, s.minus ptr⟩

/-- The lists of nodes are those of `h`, and the used blocks are the live allocations. -/
structure Serves (n : Nat) (s : Session) (h : Heaps) : Prop where
  represents : Represents s.allocator h
  ready : h.Ready n
  live : h.used ~ s.live

theorem serves_start (n : Nat) : Serves n .start ⟨[], []⟩ where
  represents := ⟨⟨rfl, by simp⟩, ⟨rfl, by simp⟩⟩
  ready := Or.inl rfl
  live := .refl _

section
variable {n : Nat} {s : Session} {h : Heaps} {size : UInt64}

theorem initial_used (n : Nat) (h : Heaps) : (h.initial n).used = h.used := by
  unfold Heaps.initial
  split
  · next hempty => exact hempty.2.symm
  · rfl

/-- A call that finds no block changes nothing. -/
theorem take_none {size : Nat} (hi : (h.take size).1 = none) : (h.take size).2 = h := by
  unfold Heaps.take at hi ⊢
  split at hi
  · rfl
  · split at hi <;> cases hi

/-- What a call that finds a block hands out. -/
theorem take_some {size i : Nat} (hi : (h.take size).1 = some i) :
    ∃ b ∈ h.free, b.index = i ∧ size ≤ b.size ∧
      (h.take size).2.used = Heaps.push ⟨i, size⟩ h.used := by
  cases hfind : h.free.find? fun b => decide (size ≤ b.size) with
  | none => simp [Heaps.take, hfind] at hi
  | some b =>
    have hle : size ≤ b.size := by simpa using List.find?_some hfind
    refine ⟨b, List.mem_of_find?_eq_some hfind, ?_⟩
    by_cases heq : b.size = size
    · simp only [Heaps.take, hfind, if_pos heq, Option.some.injEq] at hi ⊢
      subst hi heq
      exact ⟨rfl, hle, rfl⟩
    · simp only [Heaps.take, hfind, if_neg heq, Option.some.injEq] at hi ⊢
      subst hi
      exact ⟨rfl, hle, rfl⟩

theorem release_used (ptr : Nat) (h : Heaps) :
    (h.release ptr).used = h.used.eraseP fun b => decide (b.index = ptr) := by
  unfold Heaps.release
  split
  · next hfind =>
    rw [List.eraseP_of_forall_not]
    simpa using List.find?_eq_none.mp hfind
  · rfl

theorem Serves.length_le (hs : Serves n s h) : h.used.length ≤ n := by
  obtain rfl | ht := hs.ready
  · exact Nat.zero_le n
  · have hlen := ht.length_le
    omega

theorem Serves.emalloc (hs : Serves n s h) (hn : 1 ≤ n) (hn' : n ≤ 65535)
    (hsize : size.toNat < 2 ^ 32) :
    ∃ s', step n s (.emalloc size) = some s' ∧ Serves n s' (h.emalloc n size.toNat).2 := by
  obtain ⟨m', hcall, hr'⟩ := emalloc_refines hs.represents hs.ready hn hn' hsize
  have ht := hs.ready.initial hn
  refine ⟨⟨m', s.plus ((h.emalloc n size.toNat).1.map UInt32.ofNat) size⟩,
    by simp only [step, hcall, Outcome.toOption, Option.map_some], hr',
    Or.inr (hs.ready.emalloc hn _), ?_⟩
  unfold Heaps.emalloc
  split
  · simpa [initial_used, Session.plus] using hs.live
  · cases hi : ((h.initial n).take size.toNat).1 with
    | none =>
      rw [take_none hi, initial_used]
      exact hs.live
    | some i =>
      obtain ⟨b, hb, rfl, hle, hused⟩ := take_some hi
      have hinside := ht.inside (List.mem_append_left _ hb)
      have hptr : (UInt32.ofNat b.index).toNat = b.index := by
        rw [UInt32.toNat_ofNat', Nat.mod_eq_of_lt (by omega)]
      rw [hused, initial_used]
      simp only [Option.map_some, Session.plus, hptr]
      exact (push_perm _ _).trans (hs.live.cons _)

theorem Serves.efree (hs : Serves n s h) (hn' : n ≤ 65535) (ptr : Option UInt32) :
    ∃ s', step n s (.efree ptr) = some s' ∧ Serves n s' (h.efree (ptr.map UInt32.toNat)) := by
  obtain ⟨m', hcall, hr'⟩ := efree_refines hs.represents hs.ready hn' ptr
  refine ⟨⟨m', s.minus ptr⟩, by simp only [step, hcall, Outcome.toOption, Option.map_some], hr',
    hs.ready.efree _, ?_⟩
  cases ptr with
  | none => exact hs.live
  | some ptr =>
    simp only [Heaps.efree, Option.map_some, release_used]
    refine hs.live.eraseP _ ?_
    obtain rfl | ht := hs.ready
    · exact .nil
    · have hindex := ht.nodup_index
      rw [List.map_append] at hindex
      refine (List.pairwise_map.mp (List.nodup_append.mp hindex).2.1).imp fun hne hb hc => hne ?_
      simp only [decide_eq_true_eq] at hb hc
      rw [hb, hc]

/-! What a run of calls leaves. -/

/-- The blocks of the two lists are apart, both lists go up by the size, and the used blocks are the
live allocations. -/
structure Separate (s : Session) (h : Heaps) : Prop where
  represents : Represents s.allocator h
  apart : (h.free ++ h.used).Pairwise fun b c => ∀ x, b.covers x = true → c.covers x = false
  free : h.free.Pairwise fun a b => a.size ≤ b.size
  used : h.used.Pairwise fun a b => a.size ≤ b.size
  live : h.used ~ s.live

/-- What is more, the blocks make up the pool of `n` bytes. -/
structure Safe (n : Nat) (s : Session) (h : Heaps) : Prop extends Separate s h where
  pool : ∀ x, (∃ b ∈ h.free ++ h.used, b.covers x = true) ↔ x < n

/-- The allocation is a used block of `m` in the pool, apart from all that were live before. -/
structure Allocated (n : Nat) (s : Session) (m : Allocator) (b : Block) : Prop where
  inside : b.index + b.size ≤ n
  used : ∃ h, Represents m h ∧ b ∈ h.used
  apart : ∀ c ∈ s.live, c.index + c.size ≤ b.index ∨ b.index + b.size ≤ c.index

theorem Serves.separate (hs : Serves n s h) : Separate s h := by
  obtain rfl | ht := hs.ready
  · exact ⟨hs.represents, .nil, .nil, .nil, hs.live⟩
  · exact ⟨hs.represents, ht.apart, ht.free, ht.used, hs.live⟩

theorem Serves.safe (hs : Serves n s h) (ht : Tiled n h) : Safe n s h where
  toSeparate := hs.separate
  pool := fun x => by
    have hcover := ht.cover x
    constructor
    · rintro ⟨b, hb, hx⟩
      by_contra hlt
      rw [if_neg hlt] at hcover
      exact List.countP_eq_zero.mp hcover b hb hx
    · intro hlt
      rw [if_pos hlt] at hcover
      exact List.countP_pos_iff.mp (by omega)

/-- The sizes that `emalloc` reads in full everywhere. -/
def Act.Allowed : Act → Prop
  | .emalloc size => size.toNat < 2 ^ 32
  | .efree _ => True

/-- Sizes that `emalloc` reads in full, and pointers that are null or into the pool: of any other
`efree` takes 32 bits of its distance from there. -/
def Act.InPool (n : Nat) : Act → Prop
  | .emalloc size => size.toNat < 2 ^ 32
  | .efree ptr => ∀ p ∈ ptr, p.toNat < n

theorem Act.InPool.allowed {a : Act} (h : a.InPool n) : a.Allowed := by
  cases a with
  | emalloc size => exact h
  | efree ptr => trivial

theorem Serves.step (hs : Serves n s h) (hn : 1 ≤ n) (hn' : n ≤ 65535) {a : Act}
    (ha : a.Allowed) : ∃ s', Memory.step n s a = some s' ∧
      ∃ h', Serves n s' h' ∧ (Tiled n h → Tiled n h') := by
  cases a with
  | emalloc size =>
    obtain ⟨s', hstep, hs'⟩ := hs.emalloc hn hn' ha
    exact ⟨s', hstep, _, hs', fun _ => hs.ready.emalloc hn _⟩
  | efree ptr =>
    obtain ⟨s', hstep, hs'⟩ := hs.efree hn' ptr
    refine ⟨s', hstep, _, hs', fun ht => ?_⟩
    cases ptr with
    | none => exact ht
    | some ptr => exact ht.release _

theorem serves_run (hn : 1 ≤ n) (hn' : n ≤ 65535) {acts : List Act} (ha : ∀ a ∈ acts, a.Allowed)
    (hs : Serves n s h) : ∃ s', Library.run (Memory.step n) s acts = some s' ∧
      ∃ h', Serves n s' h' ∧ (Tiled n h → Tiled n h') :=
  run_of_progress (I := fun s' => ∃ h', Serves n s' h' ∧ (Tiled n h → Tiled n h'))
    (fun _ _ ⟨_, hs, ht⟩ ha =>
      let ⟨s', hstep, h', hs', ht'⟩ := hs.step hn hn' ha
      ⟨s', hstep, h', hs', fun h => ht' (ht h)⟩)
    ⟨h, hs, id⟩ ha

theorem serves_run_emalloc (hn : 1 ≤ n) (hn' : n ≤ 65535) {acts : List Act}
    (ha : ∀ a ∈ acts, a.Allowed) (hs : Serves n s h) (hmem : Act.emalloc size ∈ acts) :
    ∃ s', Library.run (Memory.step n) s acts = some s' ∧ ∃ h', Serves n s' h' ∧ Tiled n h' := by
  obtain ⟨pre, post, rfl⟩ := List.append_of_mem hmem
  obtain ⟨s₁, hrun₁, h₁, hs₁, -⟩ := serves_run hn hn' (fun a hpre =>
    ha a (List.mem_append_left _ hpre)) hs
  obtain ⟨s₂, hstep, hs₂⟩ := hs₁.emalloc hn hn' (ha _ hmem)
  obtain ⟨s₃, hrun₃, h₃, hs₃, ht₃⟩ := serves_run hn hn' (fun a hpost =>
    ha a (List.mem_append_right _ (List.mem_cons_of_mem _ hpost))) hs₂
  refine ⟨s₃, ?_, h₃, hs₃, ht₃ (hs₁.ready.emalloc hn _)⟩
  rw [run_append, hrun₁, Option.bind_some, run_cons, hstep, Option.bind_some, hrun₃]

theorem Serves.allocated (hs : Serves n s h) (hn : 1 ≤ n) (hn' : n ≤ 65535)
    (hsize : size.toNat < 2 ^ 32) : ∃ ptr m, Memory.emalloc n size s.allocator = .ok (ptr, m) ∧
      ∀ p ∈ ptr, Allocated n s m ⟨p.toNat, size.toNat⟩ := by
  obtain ⟨m, hcall, hr⟩ := emalloc_refines hs.represents hs.ready hn hn' hsize
  have ht := hs.ready.initial hn
  refine ⟨_, m, hcall, fun p hp => ?_⟩
  unfold Heaps.emalloc at hp hr
  split at hp
  · cases hp
  · next hpos =>
    rw [if_neg hpos] at hr
    obtain ⟨i, hi, rfl⟩ := Option.map_eq_some_iff.mp hp
    obtain ⟨b, hb, rfl, hle, hused⟩ := take_some hi
    have hbmem := List.mem_append_left (h.initial n).used hb
    have hinside := ht.inside hbmem
    have hptr : (UInt32.ofNat b.index).toNat = b.index := by
      rw [UInt32.toNat_ofNat', Nat.mod_eq_of_lt (by omega)]
    rw [hptr]
    refine ⟨by dsimp only; omega, ⟨_, hr, ?_⟩, fun c hc => ?_⟩
    · rw [hused]
      exact mem_push.mpr (Or.inl rfl)
    · have hcused : c ∈ (h.initial n).used := by
        rw [initial_used]
        exact hs.live.mem_iff.mpr hc
      have hcmem := List.mem_append_right (h.initial n).free hcused
      have hcpos := ht.positive c hcmem
      by_contra hoverlap
      have hcb := ht.eq_of_covers hbmem hcmem (x := max b.index c.index)
        (covers_iff.mpr (by dsimp only at hoverlap; omega))
        (covers_iff.mpr (by dsimp only at hoverlap; omega))
      have hindex := ht.nodup_index
      rw [List.map_append] at hindex
      exact (List.nodup_append.mp hindex).2.2 _ (List.mem_map_of_mem hb) _
        (List.mem_map_of_mem hcused) (by rw [hcb])

/-- Whatever was called, the blocks are apart, and from the first call of `emalloc` on they make up the
pool; `emalloc` hands out blocks of the pool that are apart from all others, and `efree` of what is
no allocation changes nothing. -/
theorem emalloc_safe (hn : 1 ≤ n) (hn' : n ≤ 65535) {acts : List Act}
    (hacts : ∀ a ∈ acts, a.InPool n) :
    ∃ s, Library.run (Memory.step n) .start acts = some s ∧
      (∃ h, Separate s h ∧ ((∃ size, Act.emalloc size ∈ acts) → Safe n s h)) ∧
      (∀ size : UInt64, size.toNat < 2 ^ 32 → ∃ ptr m,
        Memory.emalloc n size s.allocator = .ok (ptr, m) ∧
          ∀ p ∈ ptr, Allocated n s m ⟨p.toNat, size.toNat⟩) ∧
      ∀ ptr : Option UInt32, (∀ p ∈ ptr, p.toNat < n ∧ ∀ b ∈ s.live, b.index ≠ p.toNat) →
        Memory.efree n ptr s.allocator = .ok s.allocator := by
  have ha : ∀ a ∈ acts, a.Allowed := fun a hmem => (hacts a hmem).allowed
  obtain ⟨s, hrun, h, hs, -⟩ := serves_run hn hn' ha (serves_start n)
  refine ⟨s, hrun, ?_, fun size hsize => hs.allocated hn hn' hsize, fun ptr hptr => ?_⟩
  · by_cases hcalled : ∃ size, Act.emalloc size ∈ acts
    · obtain ⟨size, hmem⟩ := hcalled
      obtain ⟨s', hrun', h', hs', ht⟩ := serves_run_emalloc hn hn' ha (serves_start n) hmem
      obtain rfl : s = s' := Option.some.inj (hrun.symm.trans hrun')
      exact ⟨h', hs'.separate, fun _ => hs'.safe ht⟩
    · exact ⟨h, hs.separate, fun hcall => absurd hcall hcalled⟩
  · cases ptr with
    | none => rfl
    | some ptr =>
      exact efree_unchanged hs.represents hs.length_le fun b hb =>
        (hptr ptr rfl).2 b (hs.live.mem_iff.mp hb)

end

/-- The second allocation is given back, and so is one that there never was. -/
theorem emalloc_safe_eight : ∃ s, Library.run (step 8) .start
      [.emalloc 3, .emalloc 2, .efree (some 3), .efree (some 1)] = some s ∧
    ∃ h, Safe 8 s h := by
  have hacts : ∀ a ∈ [Act.emalloc 3, .emalloc 2, .efree (some 3), .efree (some 1)],
      a.InPool 8 := by simp [Act.InPool]
  obtain ⟨s, hrun, ⟨h, -, hsafe⟩, -⟩ := emalloc_safe (n := 8) (by decide) (by decide) hacts
  exact ⟨s, hrun, h, hsafe ⟨3, by simp⟩⟩

/-- Before the first call of `emalloc` there are no blocks, and so they do not make up the pool. -/
theorem not_safe_before_emalloc : ∃ s, Library.run (step 1) .start [.efree none] = some s ∧
    ¬ ∃ h, Safe 1 s h := by
  refine ⟨.start, rfl, fun ⟨h, hsafe⟩ => ?_⟩
  have hfree : h.free = [] := hsafe.represents.free.root_eq_none.mp rfl
  have hused : h.used = [] := hsafe.represents.used.root_eq_none.mp rfl
  obtain ⟨b, hb, -⟩ := (hsafe.pool 0).mpr Nat.one_pos
  simp [hfree, hused] at hb

end WylesLibs.Memory
