import WylesLibs.Memory.Safety

/-! When the free bytes of the pool can be had: no two free blocks lie next to each other. -/
namespace WylesLibs.Memory
open Library List

/-- No free block begins where another one ends. -/
def Coalesced (h : Heaps) : Prop := ∀ a ∈ h.free, ∀ b ∈ h.free, a.index + a.size ≠ b.index

section
variable {n size : Nat} {h : Heaps}

theorem Coalesced.initial (hc : Coalesced h) (hn : 1 ≤ n) : Coalesced (h.initial n) := by
  unfold Heaps.initial
  split
  · intro a ha b hb
    obtain rfl := List.mem_singleton.mp ha
    obtain rfl := List.mem_singleton.mp hb
    simp
    omega
  · exact hc

theorem Coalesced.take (hc : Coalesced h) (ht : Tiled n h) (hsize : 1 ≤ size) :
    Coalesced (h.take size).2 := by
  obtain ⟨pre, b, post, hfree, -, hb, hfind, herase⟩ | ⟨-, hfind⟩ :=
    first_match h.free fun b => decide (size ≤ b.size)
  · have hbmem : b ∈ h.free := by simp [hfree]
    have hsub : ∀ c ∈ pre ++ post, c ∈ h.free := fun c hcmem => by
      rw [hfree]
      exact (List.perm_middle.mem_iff).mpr (List.mem_cons_of_mem b hcmem)
    by_cases heq : b.size = size
    · simp only [Heaps.take, hfind, herase, if_pos heq]
      exact fun c hcmem d hdmem => hc c (hsub c hcmem) d (hsub d hdmem)
    · have hle : size ≤ b.size := of_decide_eq_true hb
      simp only [Heaps.take, hfind, herase, if_neg heq]
      -- the byte before the rest of the block is one of the block, and no other ends there
      have hbefore : ∀ c ∈ pre ++ post, c.index + c.size ≠ b.index + size := fun c hcmem hend => by
        have hcpos := ht.positive c (List.mem_append_left _ (hsub c hcmem))
        have hcb := ht.eq_of_covers (List.mem_append_left _ (hsub c hcmem))
          (List.mem_append_left _ hbmem) (x := b.index + size - 1) (covers_iff.mpr (by omega))
          (covers_iff.mpr (by omega))
        have hindex := (List.nodup_append.mp (List.map_append ▸ ht.nodup_index)).1
        rw [hfree] at hindex
        refine (List.nodup_cons.mp ((List.perm_middle.map Block.index).nodup_iff.mp hindex)).1 ?_
        exact hcb ▸ List.mem_map_of_mem hcmem
      intro c hcpush d hdpush
      obtain rfl | hcmem := mem_push.mp hcpush <;> obtain rfl | hdmem := mem_push.mp hdpush
      · dsimp only
        omega
      · have hne := hc b hbmem d (hsub d hdmem)
        dsimp only
        omega
      · exact hbefore c hcmem
      · exact hc c (hsub c hcmem) d (hsub d hdmem)
  · simp only [Heaps.take, hfind]
    exact hc

theorem Coalesced.release (hc : Coalesced h) (ht : Tiled n h) {ptr : Nat}
    (hnext : ∀ b ∈ h.used, b.index = ptr → ∀ f ∈ h.free, f.index ≠ b.index + b.size) :
    Coalesced (h.release ptr) := by
  obtain ⟨pre, b, post, hused, -, hb, hfind, herase⟩ | ⟨-, hfind⟩ :=
    first_match h.used fun b => decide (b.index = ptr)
  · have hbmem : b ∈ h.used := by simp [hused]
    have hpos := ht.positive b (List.mem_append_right _ hbmem)
    have hnext' := hnext b hbmem (of_decide_eq_true hb)
    simp only [Heaps.release, hfind, herase]
    obtain ⟨fpre, f, fpost, hfree, -, hf, hffind, hferase⟩ | ⟨hnone, hffind⟩ :=
      first_match h.free fun f => decide (f.index + f.size = b.index)
    · have hfmem : f ∈ h.free := by simp [hfree]
      have hmeet : f.index + f.size = b.index := of_decide_eq_true hf
      have hsub : ∀ c ∈ fpre ++ fpost, c ∈ h.free := fun c hcmem => by
        rw [hfree]
        exact (List.perm_middle.mem_iff).mpr (List.mem_cons_of_mem f hcmem)
      simp only [Heaps.merge, hffind, hferase]
      intro c hcpush d hdpush
      obtain rfl | hcmem := mem_push.mp hcpush <;> obtain rfl | hdmem := mem_push.mp hdpush
      · dsimp only
        omega
      · have hne := hnext' d (hsub d hdmem)
        dsimp only
        omega
      · exact hc c (hsub c hcmem) f hfmem
      · exact hc c (hsub c hcmem) d (hsub d hdmem)
    · simp only [Heaps.merge, hffind]
      intro c hcpush d hdpush
      obtain rfl | hcmem := mem_push.mp hcpush <;> obtain rfl | hdmem := mem_push.mp hdpush
      · omega
      · exact (hnext' d hdmem).symm
      · exact of_decide_eq_false (hnone c hcmem)
      · exact hc c hcmem d hdmem
  · simp only [Heaps.release, hfind]
    exact hc

theorem Tiled.exists_free (ht : Tiled n h) {x : Nat} (hx : x < n)
    (hfree : ∀ b ∈ h.used, b.covers x = false) : ∃ f ∈ h.free, f.covers x = true := by
  have hcover := ht.cover x
  rw [if_pos hx] at hcover
  have hpos : 0 < (h.free ++ h.used).countP (Block.covers x) := by omega
  obtain ⟨f, hf, hfx⟩ := List.countP_pos_iff.mp hpos
  obtain hf | hf := List.mem_append.mp hf
  · exact ⟨f, hf, hfx⟩
  · simp [hfree f hf] at hfx

/-- Free bytes that follow each other lie in one free block. -/
theorem Coalesced.run (hc : Coalesced h) (ht : Tiled n h) {i k : Nat} (hk : i + k < n)
    (hfree : ∀ x, i ≤ x → x ≤ i + k → ∀ b ∈ h.used, b.covers x = false) :
    ∃ f ∈ h.free, f.covers i = true ∧ f.covers (i + k) = true := by
  induction k with
  | zero =>
    obtain ⟨f, hf, hfi⟩ := ht.exists_free hk (hfree i (le_refl i) (le_refl _))
    exact ⟨f, hf, hfi, hfi⟩
  | succ k ih =>
    have hfree' : ∀ x, i ≤ x → x ≤ i + k → ∀ b ∈ h.used, b.covers x = false :=
      fun x hx hxk => hfree x hx (by omega)
    obtain ⟨f, hf, hfi, hfk⟩ := ih (by omega) hfree'
    obtain ⟨g, hg, hgk⟩ := ht.exists_free hk (hfree _ (by omega) (le_refl _))
    rw [covers_iff] at hfk hgk
    by_cases hend : f.index + f.size = i + (k + 1)
    · -- the block ends before the byte, so the block of the byte would begin there
      have hstart : g.index ≠ i + (k + 1) := fun heq => hc f hf g hg (hend.trans heq.symm)
      have hfg := ht.eq_of_covers (List.mem_append_left _ hf) (List.mem_append_left _ hg)
        (x := i + k) (covers_iff.mpr hfk) (covers_iff.mpr (by omega))
      rw [hfg] at hend
      omega
    · have hfi' := covers_iff.mp hfi
      exact ⟨f, hf, hfi, covers_iff.mpr (by omega)⟩

theorem Coalesced.take_some (hc : Coalesced h) (ht : Tiled n h) (hsize : 1 ≤ size) {i : Nat}
    (hi : i + size ≤ n) (hfree : ∀ x, i ≤ x → x < i + size → ∀ b ∈ h.used, b.covers x = false) :
    ∃ j, (h.take size).1 = some j := by
  obtain ⟨f, hf, hfi, hfk⟩ := hc.run ht (i := i) (k := size - 1) (by omega)
    fun x hx hxk => hfree x hx (by omega)
  rw [covers_iff] at hfi hfk
  obtain ⟨pre, b, post, -, -, -, hfind, -⟩ | ⟨hnone, -⟩ :=
    first_match h.free fun b => decide (size ≤ b.size)
  · refine ⟨b.index, ?_⟩
    simp only [Heaps.take, hfind]
    split <;> rfl
  · have hlt : ¬ size ≤ f.size := of_decide_eq_false (hnone f hf)
    omega

end

/-! Runs of calls. -/

/-- `emalloc` finds memory whenever there are as many bytes in a row that no live allocation
has. -/
def Session.Available (n : Nat) (s : Session) : Prop :=
  ∀ size : UInt64, 1 ≤ size.toNat → ∀ i, i + size.toNat ≤ n →
    (∀ b ∈ s.live, b.index + b.size ≤ i ∨ i + size.toNat ≤ b.index) →
    ∃ p m, emalloc n size s.allocator = .ok (some p, m)

/-- What is asked of a call: no size whose low half fits into a freed block while the size does
not, and no block given back while the one behind it is free. -/
def Tidy (n : Nat) (s : Session) : Act → Prop
  | .emalloc size => size.toNat < 2 ^ 32 ∨ ∀ h, Represents s.allocator h →
    ∀ b ∈ (h.initial n).free, b.size < size.toNat % 2 ^ 32
  | .efree ptr => ∀ p ∈ ptr, ∀ h, Represents s.allocator h → ∀ b ∈ h.used, b.index = p.toNat →
    ∀ f ∈ h.free, f.index ≠ b.index + b.size

section
variable {n : Nat} {s t : Session} {h : Heaps} {a : Act}

theorem Coalesced.emalloc (hc : Coalesced h) (hready : h.Ready n) (hn : 1 ≤ n) (size : Nat) :
    Coalesced (h.emalloc n size).2 := by
  unfold Heaps.emalloc
  split
  · exact hc.initial hn
  · exact (hc.initial hn).take (hready.initial hn) (by omega)

/-- A size that no freed block fits leaves everything as it is. -/
theorem Serves.emalloc_none (hs : Serves n s h) (hn : 1 ≤ n) (hn' : n ≤ 65535) {size : UInt64}
    (hpos : 1 ≤ size.toNat) (hnone : ∀ b ∈ (h.initial n).free, b.size < size.toNat % 2 ^ 32) :
    ∃ s', Memory.step n s (.emalloc size) = some s' ∧ Serves n s' (h.initial n) := by
  obtain ⟨m, hinit, hr⟩ := initializeData_refines hs.represents hn hn'
  have ht := hs.ready.initial hn
  have hlen := ht.length_le
  have htake := takeBlock_none (n := n) hr (by omega) hnone
  have hsize : ¬ size < 1 := fun hlt => by
    have := UInt64.lt_iff_toNat_lt.mp hlt
    simp at this
    omega
  refine ⟨⟨m, s.live⟩, ?_, hr, Or.inr ht, by rw [initial_used]; exact hs.live⟩
  simp only [Memory.step, Memory.emalloc, hinit, Outcome.bind_ok, if_neg hsize, htake,
    Outcome.toOption, Option.map_some, Session.plus]

/-- The free blocks of a session are coalesced. -/
def Tidied (n : Nat) (s : Session) : Prop := ∃ h, Serves n s h ∧ Coalesced h

theorem Tidied.step (hs : Tidied n s) (hn : 1 ≤ n) (hn' : n ≤ 65535) (ha : Tidy n s a)
    (h : Memory.step n s a = some t) : Tidied n t := by
  obtain ⟨heaps, hserves, hc⟩ := hs
  cases a with
  | emalloc size =>
    by_cases hsize : size.toNat < 2 ^ 32
    · obtain ⟨s', hstep, hs'⟩ := hserves.emalloc hn hn' hsize
      obtain rfl : s' = t := Option.some.inj (hstep.symm.trans h)
      exact ⟨_, hs', hc.emalloc hserves.ready hn _⟩
    · obtain ⟨s', hstep, hs'⟩ := hserves.emalloc_none hn hn' (by omega)
        (ha.resolve_left hsize heaps hserves.represents)
      obtain rfl : s' = t := Option.some.inj (hstep.symm.trans h)
      exact ⟨_, hs', hc.initial hn⟩
  | efree ptr =>
    obtain ⟨s', hstep, hs'⟩ := hserves.efree hn' ptr
    obtain rfl : s' = t := Option.some.inj (hstep.symm.trans h)
    refine ⟨_, hs', ?_⟩
    cases ptr with
    | none => exact hc
    | some ptr =>
      obtain rfl | ht := hserves.ready
      · exact hc
      · exact hc.release ht fun b hb hindex => ha ptr rfl heaps hserves.represents b hb hindex

theorem Tidied.available (hs : Tidied n s) (hn : 1 ≤ n) (hn' : n ≤ 65535) : s.Available n := by
  obtain ⟨heaps, hserves, hc⟩ := hs
  intro size hpos i hi hfree
  have ht := hserves.ready.initial hn
  have hsize : size.toNat < 2 ^ 32 := by omega
  obtain ⟨m, hcall, -⟩ := emalloc_refines hserves.represents hserves.ready hn hn' hsize
  obtain ⟨j, hj⟩ := (hc.initial hn).take_some ht hpos hi fun x hix hxi b hb => by
    rw [initial_used] at hb
    obtain hb | hb := hfree b (hserves.live.mem_iff.mp hb)
    · simp [Block.covers]
      omega
    · simp [Block.covers]
      omega
  rw [Heaps.emalloc, if_neg (by omega), hj] at hcall
  exact ⟨_, m, hcall⟩

/-- In a run whose calls are all tidy, memory is found whenever there is any. -/
theorem available_of_tidy (hn : 1 ≤ n) (hn' : n ≤ 65535) {acts : List Act}
    (htidy : Along (step n) (Tidy n) .start acts) (h : Visited (step n) .start acts s) :
    s.Available n := by
  have hs : Tidied n s := invariant_of_visited (fun _ _ _ hs ha h => hs.step hn hn' ha h)
    ⟨_, serves_start n, by simp [Coalesced]⟩ htidy h
  exact hs.available hn hn'

end

/-- The whole pool is allocated and given back. -/
theorem available_whole : ∃ s, Visited (step 8) .start [.emalloc 8, .efree (some 0)] s ∧
    s.live = [] ∧ s.Available 8 := by
  have htidy : Along (step 8) (Tidy 8) .start [.emalloc 8, .efree (some 0)] := by
    refine ⟨Or.inl (by decide), fun t ht => ⟨fun p _ h hr b _ _ f hf => ?_, fun _ _ => trivial⟩⟩
    have hroot : ((step 8 .start (.emalloc 8)).map fun s => s.allocator.freedRootNode) =
        some none := by decide +kernel
    rw [ht, Option.map_some, Option.some.injEq] at hroot
    simp [hr.free.root_eq_none.mp hroot] at hf
  have hrun : ((Library.run (step 8) .start [.emalloc 8, .efree (some 0)]).map Session.live) =
      some [] := by decide +kernel
  obtain ⟨s, hs, hlive⟩ := Option.map_eq_some_iff.mp hrun
  have hvisited : Visited (step 8) .start [.emalloc 8, .efree (some 0)] s := ⟨_, [], by simp, hs⟩
  exact ⟨s, hvisited, hlive, available_of_tidy (by decide) (by decide) htidy hvisited⟩

/-- A pool of the default size starts with a block of size zero; and two blocks that are given
back, the second one first, stay two blocks. -/
theorem not_available : ¬ Session.start.Available 65536 ∧
    ∃ s, Library.run (step 2) .start [.emalloc 1, .emalloc 1, .efree (some 1), .efree (some 0)] =
      some s ∧ ¬ s.Available 2 := by
  constructor
  · intro havailable
    obtain ⟨p, m, hcall⟩ := havailable 1 (by decide) 0 (by decide) (by simp [Session.start])
    have hnone : (emalloc 65536 1 .start).toOption.map Prod.fst = some none := by decide +kernel
    rw [show Session.start.allocator = .start from rfl] at hcall
    simp [hcall, Outcome.toOption] at hnone
  · have hrun : ((Library.run (step 2) .start
        [.emalloc 1, .emalloc 1, .efree (some 1), .efree (some 0)]).map fun s =>
        (s.live, (emalloc 2 2 s.allocator).toOption.map Prod.fst)) = some ([], some none) := by
      decide +kernel
    obtain ⟨s, hs, hfields⟩ := Option.map_eq_some_iff.mp hrun
    obtain ⟨hlive, hnone⟩ := Prod.mk.inj hfields
    refine ⟨s, hs, fun havailable => ?_⟩
    obtain ⟨p, m, hcall⟩ := havailable 2 (by decide) 0 (by decide) (by simp [hlive])
    simp [hcall, Outcome.toOption] at hnone

end WylesLibs.Memory
