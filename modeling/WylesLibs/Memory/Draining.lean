import WylesLibs.Memory.Safety

/-! What is left of the pool once everything is given back. A freed block goes to the free one right
before it and never to the one behind it, so where a free block begins, there will be one that
begins there. -/
namespace WylesLibs.Memory
open Library List

/-- A free block begins at this byte. -/
def Heaps.Begins (h : Heaps) (i : Nat) : Prop := ∃ f ∈ h.free, f.index = i

/-- Given back in this order, some block that begins at `i` finds nothing free before it: it is the
first one of the pool, or the one before it is still to come. -/
def Stranded : List Block → Nat → Prop
  | [], _ => False
  | b :: order, i => (i = b.index ∧ (i = 0 ∨ ∃ c ∈ order, c.index + c.size = i)) ∨ Stranded order i

section
variable {n : Nat} {h : Heaps} {b : Block} {order : List Block}

theorem begins_merge (b : Block) (free : List Block) (i : Nat) :
    (∃ f ∈ Heaps.merge b free, f.index = i) ↔ (∃ f ∈ free, f.index = i) ∨
      (i = b.index ∧ ∀ f ∈ free, f.index + f.size ≠ b.index) := by
  obtain ⟨pre, g, post, rfl, -, hg, hfind, herase⟩ | ⟨hnone, hfind⟩ :=
    first_match free fun f => decide (f.index + f.size = b.index)
  · have hmeet : g.index + g.size = b.index := of_decide_eq_true hg
    simp only [Heaps.merge, hfind, herase, mem_push]
    constructor
    · rintro ⟨f, rfl | hf, rfl⟩
      · exact Or.inl ⟨g, by simp, rfl⟩
      · exact Or.inl ⟨f, List.perm_middle.mem_iff.mpr (List.mem_cons_of_mem g hf), rfl⟩
    · rintro (⟨f, hf, rfl⟩ | ⟨-, hall⟩)
      · obtain rfl | hf := List.mem_cons.mp (List.perm_middle.mem_iff.mp hf)
        · exact ⟨_, Or.inl rfl, rfl⟩
        · exact ⟨f, Or.inr hf, rfl⟩
      · exact absurd hmeet (hall g (by simp))
  · simp only [Heaps.merge, hfind, mem_push]
    constructor
    · rintro ⟨f, rfl | hf, rfl⟩
      · exact Or.inr ⟨rfl, fun f hf => of_decide_eq_false (hnone f hf)⟩
      · exact Or.inl ⟨f, hf, rfl⟩
    · rintro (⟨f, hf, rfl⟩ | ⟨rfl, -⟩)
      · exact ⟨f, Or.inr hf, rfl⟩
      · exact ⟨b, Or.inl rfl, rfl⟩

/-- Two blocks that begin at the same byte are one. -/
theorem Tiled.eq_of_index (ht : Tiled n h) {b c : Block} (hb : b ∈ h.free ++ h.used)
    (hc : c ∈ h.free ++ h.used) (hindex : b.index = c.index) : b = c := by
  have hbpos := ht.positive b hb
  have hcpos := ht.positive c hc
  exact ht.eq_of_covers hb hc (x := b.index) (covers_iff.mpr (by omega))
    (covers_iff.mpr (by omega))

/-- A used block is given back by the byte it begins at. -/
theorem Tiled.release_eq (ht : Tiled n h) (hb : b ∈ h.used) :
    h.release b.index = ⟨Heaps.merge b h.free, h.used.eraseP fun c => decide (c.index = b.index)⟩ ∧
      h.used ~ b :: (h.release b.index).used := by
  obtain ⟨pre, c, post, hused, -, hc, hfind, herase⟩ | ⟨hnone, -⟩ :=
    first_match h.used fun c => decide (c.index = b.index)
  · have hcmem : c ∈ h.used := by simp [hused]
    obtain rfl : c = b := ht.eq_of_index (List.mem_append_right _ hcmem)
      (List.mem_append_right _ hb) (of_decide_eq_true hc)
    have hrelease : h.release c.index =
        ⟨Heaps.merge c h.free, h.used.eraseP fun d => decide (d.index = c.index)⟩ := by
      simp only [Heaps.release, hfind]
    refine ⟨hrelease, ?_⟩
    rw [hrelease, herase]
    conv_lhs => rw [hused]
    exact List.perm_middle
  · exact absurd rfl (of_decide_eq_false (hnone b hb))

/-- The byte before a used block is in a free one, in a used one, or not in the pool. -/
theorem Tiled.before (ht : Tiled n h) (hb : b ∈ h.used) :
    (∀ f ∈ h.free, f.index + f.size ≠ b.index) ↔
      b.index = 0 ∨ ∃ c ∈ h.used, c.index + c.size = b.index := by
  have hbmem : b ∈ h.free ++ h.used := List.mem_append_right _ hb
  have hbpos := ht.positive b hbmem
  have hinside := ht.inside hbmem
  constructor
  · intro hall
    by_contra hnot
    obtain ⟨hpos, hnone⟩ := not_or.mp hnot
    have hcover := ht.cover (b.index - 1)
    rw [if_pos (by omega)] at hcover
    obtain ⟨c, hc, hcx⟩ := List.countP_pos_iff.mp (Nat.lt_of_lt_of_eq Nat.one_pos hcover.symm)
    have hcx' := covers_iff.mp hcx
    -- the block of that byte ends there, or it would have the first byte of `b` too
    have hend : c.index + c.size = b.index := by
      by_contra hne
      have hcb := ht.eq_of_covers hc hbmem (x := b.index) (covers_iff.mpr (by omega))
        (covers_iff.mpr (by omega))
      rw [hcb] at hcx'
      omega
    obtain hc | hc := List.mem_append.mp hc
    · exact hall c hc hend
    · exact hnone ⟨c, hc, hend⟩
  · rintro (hzero | ⟨c, hc, hend⟩) f hf hmeet
    · have hfpos := ht.positive f (List.mem_append_left _ hf)
      omega
    · have hfmem : f ∈ h.free ++ h.used := List.mem_append_left _ hf
      have hcmem : c ∈ h.free ++ h.used := List.mem_append_right _ hc
      have hfpos := ht.positive f hfmem
      have hcpos := ht.positive c hcmem
      obtain rfl := ht.eq_of_covers hfmem hcmem (x := b.index - 1) (covers_iff.mpr (by omega))
        (covers_iff.mpr (by omega))
      have hnodup := ht.nodup_index
      rw [List.map_append] at hnodup
      exact (List.nodup_append.mp hnodup).2.2 _ (List.mem_map_of_mem hf) _
        (List.mem_map_of_mem hc) rfl

/-! Everything is given back. -/

def Heaps.releaseAll (order : List Block) (h : Heaps) : Heaps :=
  order.foldl (fun h b => h.release b.index) h

theorem Tiled.releaseAll (ht : Tiled n h) (horder : order ~ h.used) :
    Tiled n (h.releaseAll order) ∧ (h.releaseAll order).used = [] ∧
      ∀ i, (h.releaseAll order).Begins i ↔ h.Begins i ∨ Stranded order i := by
  induction order generalizing h with
  | nil => exact ⟨ht, horder.nil_eq.symm, fun i => by simp [Stranded, Heaps.releaseAll]⟩
  | cons b order ih =>
    have hb : b ∈ h.used := horder.subset List.mem_cons_self
    obtain ⟨hrelease, hused⟩ := ht.release_eq hb
    have hrest : order ~ (h.release b.index).used := (horder.trans hused).cons_inv
    obtain ⟨ht', hnil, hbegins⟩ := ih (ht.release b.index) hrest
    refine ⟨ht', hnil, fun i => ?_⟩
    have hfirst : (h.release b.index).Begins i ↔ h.Begins i ∨
        (i = b.index ∧ ∀ f ∈ h.free, f.index + f.size ≠ b.index) := by
      rw [hrelease]
      exact begins_merge b h.free i
    have hpos := ht.positive b (List.mem_append_right _ hb)
    have hself : (∃ c ∈ h.used, c.index + c.size = b.index) ↔
        ∃ c ∈ order, c.index + c.size = b.index := by
      constructor
      · rintro ⟨c, hc, hend⟩
        obtain rfl | hc := List.mem_cons.mp (horder.mem_iff.mpr hc)
        · omega
        · exact ⟨c, hc, hend⟩
      · rintro ⟨c, hc, hend⟩
        exact ⟨c, horder.subset (List.mem_cons_of_mem b hc), hend⟩
    rw [Heaps.releaseAll, List.foldl_cons, ← Heaps.releaseAll, hbegins, hfirst, ht.before hb, hself,
      Stranded, or_assoc]
    constructor
    · rintro (hold | ⟨rfl, hstranded⟩ | hlater)
      · exact Or.inl hold
      · exact Or.inr (Or.inl ⟨rfl, hstranded⟩)
      · exact Or.inr (Or.inr hlater)
    · rintro (hold | ⟨rfl, hstranded⟩ | hlater)
      · exact Or.inl hold
      · exact Or.inr (Or.inl ⟨rfl, hstranded⟩)
      · exact Or.inr (Or.inr hlater)

/-- A pool that is free can be had as a whole if its blocks all begin at its first byte. -/
theorem Tiled.whole_iff (ht : Tiled n h) (hn : 1 ≤ n) (hused : h.used = []) :
    (h.emalloc n n).1 ≠ none ↔ ∀ i, h.Begins i → i = 0 := by
  have hinitial : h.initial n = h := by
    refine if_neg fun hempty => ?_
    have hcover := ht.cover 0
    rw [if_pos (by omega)] at hcover
    simp [hempty.1, hempty.2] at hcover
  have hlarge : (h.emalloc n n).1 ≠ none ↔ ∃ f ∈ h.free, n ≤ f.size := by
    rw [Heaps.emalloc, if_neg (by omega), hinitial, Heaps.take]
    cases hfind : h.free.find? fun f => decide (n ≤ f.size) with
    | none =>
      have hnone := List.find?_eq_none.mp hfind
      simpa using hnone
    | some f =>
      have hf := List.find?_some hfind
      refine iff_of_true ?_ ⟨f, List.mem_of_find?_eq_some hfind, of_decide_eq_true hf⟩
      dsimp only
      split <;> simp
  rw [hlarge]
  constructor
  · rintro ⟨f, hf, hsize⟩ i ⟨g, hg, rfl⟩
    have hfmem : f ∈ h.free ++ h.used := List.mem_append_left _ hf
    have hgmem : g ∈ h.free ++ h.used := List.mem_append_left _ hg
    have hfin := ht.inside hfmem
    have hgin := ht.inside hgmem
    have hgpos := ht.positive g hgmem
    obtain rfl := ht.eq_of_covers hfmem hgmem (x := g.index) (covers_iff.mpr (by omega))
      (covers_iff.mpr (by omega))
    omega
  · intro hall
    obtain ⟨f, hf, hlast⟩ : ∃ f ∈ h.free, f.covers (n - 1) = true := by
      have hcover := ht.cover (n - 1)
      rw [if_pos (by omega), hused, List.append_nil] at hcover
      exact List.countP_pos_iff.mp (Nat.lt_of_lt_of_eq Nat.one_pos hcover.symm)
    have hzero := hall f.index ⟨f, hf, rfl⟩
    have hlast' := covers_iff.mp hlast
    exact ⟨f, hf, by omega⟩

/-! The order in which a pool without free blocks becomes whole again. -/

theorem not_stranded_of_ascending (horder : order.Pairwise fun b c => b.index < c.index) {i : Nat}
    (hi : Stranded order i) : i = 0 := by
  induction order with
  | nil => exact absurd hi id
  | cons b order ih =>
    obtain ⟨hbehind, hrest⟩ := List.pairwise_cons.mp horder
    obtain ⟨rfl, hzero | ⟨c, hc, hend⟩⟩ | hlater := hi
    · exact hzero
    · have hlt := hbehind c hc
      omega
    · exact ih hrest hlater

/-- Blocks that follow each other from the byte `k` on. -/
structure Chain (k : Nat) (order : List Block) : Prop where
  positive : ∀ b ∈ order, 0 < b.size
  apart : order.Pairwise fun b c => ∀ x, b.covers x = true → c.covers x = false
  from_le : ∀ b ∈ order, k ≤ b.index
  linked : ∀ b ∈ order, b.index = k ∨ ∃ c ∈ order, c.index + c.size = b.index

/-- If no block is given back before the one in front of it, the first one is that at the start. -/
theorem Chain.ascending {k : Nat} (hchain : Chain k order)
    (horder : ∀ i, Stranded order i → i = 0) : order.Pairwise fun b c => b.index < c.index := by
  induction order generalizing k with
  | nil => exact .nil
  | cons b order ih =>
    obtain ⟨hapart, hrest⟩ := List.pairwise_cons.mp hchain.apart
    have hbpos := hchain.positive b List.mem_cons_self
    have hfirst : ∀ c ∈ order, c.index + c.size ≠ b.index := by
      intro c hc hend
      have hzero := horder b.index (Or.inl ⟨rfl, Or.inr ⟨c, hc, hend⟩⟩)
      have hcpos := hchain.positive c (List.mem_cons_of_mem b hc)
      omega
    have hstart : b.index = k := by
      obtain hk | ⟨c, hc, hend⟩ := hchain.linked b List.mem_cons_self
      · exact hk
      · obtain rfl | hc := List.mem_cons.mp hc
        · omega
        · exact absurd hend (hfirst c hc)
    have hbehind : ∀ c ∈ order, b.index + b.size ≤ c.index := by
      intro c hc
      have hcfrom := hchain.from_le c (List.mem_cons_of_mem b hc)
      have hcpos := hchain.positive c (List.mem_cons_of_mem b hc)
      by_contra hlt
      have hcovers := hapart c hc c.index (covers_iff.mpr (by omega))
      rw [covers_iff.mpr (by omega)] at hcovers
      cases hcovers
    have htail : Chain (b.index + b.size) order := {
      positive := fun c hc => hchain.positive c (List.mem_cons_of_mem b hc)
      apart := hrest
      from_le := hbehind
      linked := by
        intro c hc
        have hle := hbehind c hc
        obtain hk | ⟨d, hd, hend⟩ := hchain.linked c (List.mem_cons_of_mem b hc)
        · omega
        · obtain rfl | hd := List.mem_cons.mp hd
          · exact Or.inl hend.symm
          · exact Or.inr ⟨d, hd, hend⟩ }
    refine List.pairwise_cons.mpr ⟨fun c hc => ?_, ih htail fun i hi => horder i (Or.inr hi)⟩
    have hle := hbehind c hc
    omega

theorem Tiled.chain (ht : Tiled n h) (hfree : h.free = []) (horder : order ~ h.used) :
    Chain 0 order := by
  have hmem : ∀ b ∈ order, b ∈ h.used := fun b hb => horder.subset hb
  have hsymm : ∀ b c : Block, (∀ x, b.covers x = true → c.covers x = false) →
      ∀ x, c.covers x = true → b.covers x = false := by
    intro b c hbc x hcx
    by_contra hbx
    simp [hbc x (by simpa using hbx)] at hcx
  exact {
    positive := fun b hb => ht.positive b (List.mem_append_right _ (hmem b hb))
    apart := by
      have hapart := ht.apart
      rw [hfree, List.nil_append] at hapart
      exact hapart.perm horder.symm fun {b c} => hsymm b c
    from_le := fun b _ => Nat.zero_le b.index
    linked := by
      intro b hb
      have hnone : ∀ f ∈ h.free, f.index + f.size ≠ b.index := by simp [hfree]
      obtain hzero | ⟨c, hc, hend⟩ := (ht.before (hmem b hb)).mp hnone
      · exact Or.inl hzero
      · exact Or.inr ⟨c, horder.mem_iff.mpr hc, hend⟩ }

theorem Tiled.whole_iff_chain (ht : Tiled n h) (hn : 1 ≤ n) (hfree : h.free = [])
    (horder : order ~ h.used) :
    ((h.releaseAll order).emalloc n n).1 ≠ none ↔ order.Pairwise fun b c => b.index < c.index := by
  obtain ⟨ht', hused, hbegins⟩ := ht.releaseAll horder
  have hbegins' : ∀ i, (h.releaseAll order).Begins i ↔ Stranded order i := by
    intro i
    rw [hbegins]
    simp [Heaps.Begins, hfree]
  rw [ht'.whole_iff hn hused]
  simp only [hbegins']
  exact ⟨(ht.chain hfree horder).ascending, fun hasc i => not_stranded_of_ascending hasc⟩

/-! Runs of calls. -/

/-- The calls that give these blocks back. -/
def giveBack (order : List Block) : List Act :=
  order.map fun b => .efree (some (UInt32.ofNat b.index))

theorem Serves.giveBack {s : Session} (hs : Serves n s h) (hn' : n ≤ 65535)
    (hinside : ∀ b ∈ order, b.index < n) :
    ∃ t, Library.run (Memory.step n) s (Memory.giveBack order) = some t ∧
      Serves n t (h.releaseAll order) := by
  induction order generalizing s h with
  | nil => exact ⟨s, rfl, hs⟩
  | cons b order ih =>
    have hb := hinside b List.mem_cons_self
    have hptr : (UInt32.ofNat b.index).toNat = b.index := by
      rw [UInt32.toNat_ofNat', Nat.mod_eq_of_lt (by omega)]
    obtain ⟨s', hstep, hs'⟩ := hs.efree hn' (some (UInt32.ofNat b.index))
    have hrelease : h.efree ((some (UInt32.ofNat b.index)).map UInt32.toNat) =
        h.release b.index := by simp only [Option.map_some, Heaps.efree, hptr]
    rw [hrelease] at hs'
    obtain ⟨t, hrun, ht⟩ := ih hs' fun c hc => hinside c (List.mem_cons_of_mem b hc)
    refine ⟨t, ?_, ht⟩
    rw [Memory.giveBack, List.map_cons, run_cons, hstep, Option.bind_some]
    exact hrun

/-- Where every byte is in a live allocation, nothing is free. -/
theorem Serves.full {s : Session} (hs : Serves n s h) (hn : 1 ≤ n)
    (hfull : ∀ x < n, ∃ b ∈ s.live, b.covers x = true) : Tiled n h ∧ h.free = [] := by
  obtain ⟨b, hb, -⟩ := hfull 0 (by omega)
  have hbused : b ∈ h.used := hs.live.mem_iff.mpr hb
  have ht : Tiled n h := by
    refine hs.ready.resolve_left fun hempty => ?_
    simp [hempty] at hbused
  refine ⟨ht, List.eq_nil_iff_forall_not_mem.mpr fun f hf => ?_⟩
  have hfmem : f ∈ h.free ++ h.used := List.mem_append_left _ hf
  have hfpos := ht.positive f hfmem
  have hfin := ht.inside hfmem
  obtain ⟨c, hc, hcovers⟩ := hfull f.index (by omega)
  have hcused : c ∈ h.used := hs.live.mem_iff.mpr hc
  obtain rfl := ht.eq_of_covers hfmem (List.mem_append_right _ hcused) (x := f.index)
    (covers_iff.mpr (by omega)) hcovers
  have hnodup := ht.nodup_index
  rw [List.map_append] at hnodup
  exact (List.nodup_append.mp hnodup).2.2 _ (List.mem_map_of_mem hf) _
    (List.mem_map_of_mem hcused) rfl

/-- Where clients have come to own every byte of the pool and then give all of it back, it can be
had as a whole again if and only if they gave it back in the order of the addresses. `live` is the
clients' own ledger of what they have and have not given back. -/
theorem whole_iff_ascending (hn : 1 ≤ n) (hn' : n ≤ 65535) {acts : List Act}
    (hsizes : ∀ size, Act.emalloc size ∈ acts → size.toNat < 2 ^ 32) {s : Session}
    (hrun : Library.run (step n) .start acts = some s)
    (hfull : ∀ x < n, ∃ b ∈ s.live, b.covers x = true) (horder : order ~ s.live) :
    ∃ t p m, Library.run (step n) s (giveBack order) = some t ∧ t.live = [] ∧
      emalloc n (UInt64.ofNat n) t.allocator = .ok (p, m) ∧
      (p ≠ none ↔ order.Pairwise fun b c => b.index < c.index) := by
  have ha : ∀ a ∈ acts, a.Allowed := by
    intro a hmem
    cases a with
    | emalloc size => exact hsizes size hmem
    | efree ptr => trivial
  obtain ⟨s', hrun', h, hs, -⟩ := serves_run hn hn' ha (serves_start n)
  obtain rfl : s = s' := Option.some.inj (hrun.symm.trans hrun')
  obtain ⟨ht, hfree⟩ := hs.full hn hfull
  have horder' : order ~ h.used := horder.trans hs.live.symm
  have hinside : ∀ b ∈ order, b.index < n := by
    intro b hb
    have hbmem : b ∈ h.free ++ h.used := List.mem_append_right _ (horder'.subset hb)
    have hbpos := ht.positive b hbmem
    have hbin := ht.inside hbmem
    omega
  obtain ⟨t, hback, htserves⟩ := hs.giveBack hn' hinside
  obtain ⟨-, hused, -⟩ := ht.releaseAll horder'
  have hsize : (UInt64.ofNat n).toNat = n := by
    rw [UInt64.toNat_ofNat', Nat.mod_eq_of_lt (by omega)]
  have hlt : (UInt64.ofNat n).toNat < 2 ^ 32 := by omega
  obtain ⟨m, hcall, -⟩ := emalloc_refines htserves.represents htserves.ready hn hn' hlt
  refine ⟨t, _, m, hback, ?_, hcall, ?_⟩
  · exact (htserves.live.symm.trans (hused ▸ .refl _)).eq_nil
  · rw [hsize, ← ht.whole_iff_chain hn hfree horder']
    simp

end

/-- The first block is given back last, and the pool stays in two. -/
theorem whole_iff_ascending_eight : ∃ s t p m,
    Library.run (step 8) .start [.emalloc 3, .emalloc 5] = some s ∧
      Library.run (step 8) s (giveBack [⟨3, 5⟩, ⟨0, 3⟩]) = some t ∧ t.live = [] ∧
      emalloc 8 (UInt64.ofNat 8) t.allocator = .ok (p, m) ∧
      (p ≠ none ↔ [(⟨3, 5⟩ : Block), ⟨0, 3⟩].Pairwise fun b c => b.index < c.index) := by
  have hlive : (Library.run (step 8) .start [.emalloc 3, .emalloc 5]).map Session.live =
      some [⟨3, 5⟩, ⟨0, 3⟩] := by decide +kernel
  obtain ⟨s, hrun, hlive⟩ := Option.map_eq_some_iff.mp hlive
  have hfull : ∀ x < 8, ∃ b ∈ s.live, b.covers x = true := by
    rw [hlive]
    decide
  have horder : [⟨3, 5⟩, ⟨0, 3⟩] ~ s.live := hlive ▸ List.Perm.refl _
  obtain ⟨t, p, m, h⟩ :=
    whole_iff_ascending (n := 8) (by decide) (by decide) (by simp) hrun hfull horder
  exact ⟨s, t, p, m, hrun, h⟩

end WylesLibs.Memory
