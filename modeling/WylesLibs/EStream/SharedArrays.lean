import WylesLibs.Library.Counted
import WylesLibs.EStream.Lent

/-! The arrays that a stream hands out. A `SharedArray` is a handle to a control block; the stream
keeps two of its own, the `until` of its criteria and the `data` of its collector, and what it
returns shares the block of the latter. -/
namespace WylesLibs.Stream
open Library
variable {α θ : Type}

/-- The heap of the `ArrayControl`s: the array each points to, and its `instance_count`. -/
abbrev ArrayHeap (α : Type) := CountedHeap (List α)

open CountedHeap

/-! `ArrayCollector`, with its member `data` on the heap. -/

/-- The heap and the handle `data`; undefined once a call has gone to a released block. -/
structure SharedCollector (α : Type) where
  state : Outcome (ArrayHeap α × Nat)

namespace SharedCollector

/-- `initialize`: `this->data = SharedArray<T>()`. The assignment swaps the two, so that it is the temporary
that ends with the block collected before. -/
def initData (data : Nat) : Prog (ArrayHeap α) Nat := do
  let fresh ← make []
  destroy data
  pure fresh

def append (c : SharedCollector α) (els : List α) : Outcome (SharedCollector α) :=
  c.state.bind fun s => (edit s.2 (· ++ els) s.1).bind fun r => .ok ⟨.ok (r.2, s.2)⟩

/-- `collect` returns a copy of `data`. -/
instance : Collector (SharedCollector α) α (Outcome ((ArrayHeap α × Nat) × Nat)) where
  init c := ⟨c.state.bind fun s => (initData s.2 s.1).bind fun r => .ok (r.2, r.1)⟩
  accumulate c el := c.append [el]
  accumulateEls c els := c.append els
  collect c := c.state.bind fun s => (copy s.2 s.1).bind fun r => .ok ((r.2, s.2), s.2)

end SharedCollector

/-- A stream, the heap, and the handles in the stream's criteria and in its collector. -/
structure SharedStream (α : Type) where
  stream : EStream α
  heap : ArrayHeap α
  criteria : Nat
  collector : Nat

/-- `readEls`; without a task it takes whole pieces out of the buffer. -/
def EStream.readElsWith [DecidableEq α] [StreamTask θ α] (n : Nat) (operation : Option θ) :
    Prog (EStream α) (List α) :=
  if n = 0 then Prog.raise "It doesn't make sense to read zero els."
  else if n > arbitraryLimitBecauseDumb then
    Prog.raise ("You're reading more than the limit specified... " ++
      "Read less, or you know what, don't read at all.")
  else
    match operation with
    | none => EStream.readEls n
    | some task => do
      let (data, _) ← streamCollect (LoopCriteria.mk' .untilNumElements true n ([] : List α))
        (some task) (⟨[]⟩ : ArrayCollector α)
      pure data

/-- `return data` for a local array: it is the caller's own, or the move constructor makes that. It swaps
with a `ctrl` that is not set before; `null` says whether the memory there holds a null pointer. -/
inductive Return where
  | elided
  | moved (null : Bool)

/-- Nothing that was never set is taken for an array. -/
def Return.Sound (how : Return) : Prop := how ≠ .moved false

namespace SharedStream

/-- `initStreamProcessing`: each of the two members has a fresh array. -/
def opened (stream : EStream α) : SharedStream α where
  stream := stream
  heap := ⟨Function.update (Function.update (fun _ => none) 0 (some ⟨[], 1⟩)) 1 (some ⟨[], 1⟩), 2⟩
  criteria := 0
  collector := 1

def onHeap {β : Type} (m : Prog (ArrayHeap α) β) : Prog (SharedStream α) β := fun s =>
  (m s.heap).bind fun r => .ok (r.1, { s with heap := r.2 })

def onStream {β : Type} (m : Prog (EStream α) β) : Prog (SharedStream α) β := fun s =>
  (m s.stream).bind fun r => .ok (r.1, { s with stream := r.2 })

/-- `*criteria = LoopCriteria(LoopCriteriaInfo(…, until))`. Neither class has a move, so `until` is
copied into the parameter and the member of the information, from there into the member of the
temporary criteria, and by the assignment into the stream's own; the array that was there is
overwritten and not destroyed. -/
def setCriteria (untilEls : Nat) : Prog (SharedStream α) Unit := do
  onHeap (copy untilEls)
  onHeap (copy untilEls)
  onHeap (destroy untilEls)
  onHeap (copy untilEls)
  onHeap (copy untilEls)
  Prog.modify fun s => { s with criteria := untilEls }
  onHeap (destroy untilEls)
  onHeap (destroy untilEls)

section
variable [DecidableEq α] [StreamTask θ α]

/-- `streamCollect` with the collector of the stream. What it returns is not copied again. -/
def collect (criteria : LoopCriteria α) (operation : Option θ) : Prog (SharedStream α) Nat :=
  fun s =>
    (streamCollect criteria operation (⟨.ok (s.heap, s.collector)⟩ : SharedCollector α)
      s.stream).bind fun r => r.1.1.bind fun c =>
        .ok (c.2, { s with stream := r.2, heap := c.1.1, collector := c.1.2 })

/-- `read` of the array that the caller has at `untilEls`; the parameter is a copy of it, and ends
with the call. -/
def read (untilEls : Nat) (operation : Option θ) (inclusive : Bool) :
    Prog (SharedStream α) Nat := do
  onHeap (copy untilEls)
  setCriteria untilEls
  let els ← onHeap (view untilEls)
  let data ← collect (LoopCriteria.mk' .untilMatch inclusive 0 els) operation
  onHeap (destroy untilEls)
  pure data

/-- `data` ends with what the caller's array had for its `ctrl` before the swap. -/
def giveBack (how : Return) (data : Nat) : Prog (SharedStream α) Nat :=
  match how with
  | .moved false => fun _ => .undef
  | .elided | .moved true => pure data

/-- With a task, `data` is assigned what was collected: it is the temporary that ends with the
array that was made for `data`. Without one, what is read is appended to that array. -/
def readEls (n : Nat) (operation : Option θ) (how : Return) : Prog (SharedStream α) Nat :=
  if n = 0 then Prog.raise "It doesn't make sense to read zero els."
  else if n > arbitraryLimitBecauseDumb then
    Prog.raise ("You're reading more than the limit specified... " ++
      "Read less, or you know what, don't read at all.")
  else do
    let data ← onHeap (make [])
    match operation with
    | none =>
      let els ← onStream (EStream.readEls n)
      onHeap (edit data (· ++ els))
      giveBack how data
    | some task =>
      let untilEls ← onHeap (make [])
      setCriteria untilEls
      let collected ← collect (LoopCriteria.mk' .untilNumElements true n []) (some task)
      onHeap (destroy data)
      onHeap (destroy untilEls)
      giveBack how collected

end

/-! What a call that throws leaves behind: the stream anywhere, the array collected with anything
in it. -/

def abandoned (left : EStream α) (junk : List α) : Prog (SharedStream α) Unit := do
  let data ← Prog.view fun s => .ok s.collector
  let fresh ← onHeap (SharedCollector.initData data)
  onHeap (edit fresh (· ++ junk))
  Prog.modify fun s => { s with stream := left, collector := fresh }

def readThrown (untilEls : Nat) (left : EStream α) (junk : List α) : Prog (SharedStream α) Unit := do
  onHeap (copy untilEls)
  setCriteria untilEls
  abandoned left junk
  onHeap (destroy untilEls)

/-- A size that is refused is refused before anything is made. -/
def readElsThrown (n : Nat) (withTask : Bool) (left : EStream α) (junk : List α) :
    Prog (SharedStream α) Unit :=
  if n = 0 ∨ n > arbitraryLimitBecauseDumb then pure ()
  else do
    let data ← onHeap (make [])
    if withTask then
      let untilEls ← onHeap (make [])
      setCriteria untilEls
      abandoned left junk
      onHeap (destroy untilEls)
      onHeap (destroy data)
    else
      onHeap (edit data (· ++ junk))
      Prog.modify fun s => { s with stream := left }
      onHeap (destroy data)

/-! What each piece does to the arrays held. -/

section
variable {s : SharedStream α} {held : List (Nat × List α)} {i : Nat} {els d : List α}

theorem onHeap_ok {β : Type} {m : Prog (ArrayHeap α) β} {b : β} {h' : ArrayHeap α}
    (hm : m s.heap = .ok (b, h')) : onHeap m s = .ok (b, { s with heap := h' }) := by
  simp [onHeap, hm]

theorem initData_ok {h : ArrayHeap α} {data : Nat} (ho : Owns h ((data, d) :: held)) :
    ∃ h', SharedCollector.initData data h = .ok (h.allocated, h') ∧
      Owns h' ((h.allocated, []) :: held) ∧ h.allocated ∉ handles held := by
  obtain ⟨h₁, hmake, ho₁⟩ := ho.make []
  obtain ⟨h₂, hdestroy, ho₂⟩ := (ho₁.perm (.swap _ _ _)).destroy
  refine ⟨h₂, by simp [SharedCollector.initData, hmake, hdestroy], ho₂, ?_⟩
  intro hmem
  exact ho.allocated_not_mem (List.mem_cons_of_mem _ hmem)

theorem setCriteria_ok {u : Nat} (ho : Owns s.heap held) (hu : (u, els) ∈ held) :
    ∃ h', setCriteria u s = .ok ((), { s with heap := h', criteria := u }) ∧
      Owns h' ((u, els) :: held) := by
  have hmem : ∀ l : List (Nat × List α), (u, els) ∈ (u, els) :: l := fun _ => List.mem_cons_self
  obtain ⟨h₁, hs₁, ho₁⟩ := ho.copy hu
  obtain ⟨h₂, hs₂, ho₂⟩ := ho₁.copy (hmem _)
  obtain ⟨h₃, hs₃, ho₃⟩ := ho₂.destroy
  obtain ⟨h₄, hs₄, ho₄⟩ := ho₃.copy (hmem _)
  obtain ⟨h₅, hs₅, ho₅⟩ := ho₄.copy (hmem _)
  obtain ⟨h₆, hs₆, ho₆⟩ := ho₅.destroy
  obtain ⟨h₇, hs₇, ho₇⟩ := ho₆.destroy
  refine ⟨h₇, ?_, ho₇⟩
  simp [setCriteria, onHeap, hs₁, hs₂, hs₃, hs₄, hs₅, hs₆, hs₇]

end

/-- A collector on the heap that holds in its block what the other holds itself. -/
def Tracks (held : List (Nat × List α)) (data : Nat) (k : SharedCollector α)
    (k' : ArrayCollector α) : Prop :=
  ∃ h, k.state = .ok (h, data) ∧ Owns h ((data, k'.data) :: held)

theorem Tracks.append {held : List (Nat × List α)} {data : Nat} (hnew : data ∉ handles held)
    {k : SharedCollector α} {k' : ArrayCollector α} (ht : Tracks held data k k')
    (els : List α) : (k.append els).Both (Tracks held data) (.ok ⟨k'.data ++ els⟩) := by
  obtain ⟨h, hk, ho⟩ := ht
  obtain ⟨h', hedit, ho'⟩ := ho.edit_own hnew (· ++ els)
  have happend : k.append els = .ok ⟨.ok (h', data)⟩ := by
    simp [SharedCollector.append, hk, hedit]
  rw [happend]
  exact .ok ⟨h', rfl, ho'⟩

theorem Tracks.takeAlike {held : List (Nat × List α)} {data : Nat} (hnew : data ∉ handles held) :
    TakeAlike (Tracks held data) where
  accumulate _ _ el ht := ht.append hnew [el]
  accumulateEls _ _ els ht := ht.append hnew els

section
variable [DecidableEq α] [StreamTask θ α] [LentTask θ]
variable {s : SharedStream α} {held : List (Nat × List α)} {els d : List α}

theorem collect_both (criteria : LoopCriteria α) (operation : Option θ)
    (ho : Owns s.heap ((s.collector, d) :: held)) :
    (collect criteria operation s).Both
      (fun p q => p.2.stream = q.2 ∧ p.2.criteria = s.criteria ∧
        Owns p.2.heap ((p.1, q.1.1) :: (p.2.collector, q.1.1) :: held))
      (streamCollect criteria operation (⟨[]⟩ : ArrayCollector α) s.stream) := by
  obtain ⟨h₁, hinit, ho₁, hnew⟩ := initData_ok ho
  have hstart : Tracks held s.heap.allocated
      (Collector.init (⟨.ok (s.heap, s.collector)⟩ : SharedCollector α))
      (Collector.init (⟨[]⟩ : ArrayCollector α)) := by
    refine ⟨h₁, ?_, ho₁⟩
    simp [Collector.init, hinit]
  have hboth := (Tracks.takeAlike hnew).streamCollect criteria operation s.stream hstart
  apply Outcome.Both.bind_left hboth
  intro p q h
  obtain ⟨hs, -, k, k', ⟨h₂, hk, ho₂⟩, hp, hq⟩ := h
  obtain ⟨h₃, hcopy, ho₃⟩ := ho₂.copy List.mem_cons_self
  have hdata : q.1.1 = k'.data := hq
  have hgot : p.1.1 = .ok ((h₃, s.heap.allocated), s.heap.allocated) := by
    rw [hp]
    simp [Collector.collect, hk, hcopy]
  rw [hgot]
  rw [← hdata] at ho₃
  exact .ok ⟨hs, rfl, ho₃⟩

end

/-- The stream's own two handles are held beside those outside it. -/
def Keeps (s : SharedStream α) (held : List (Nat × List α)) : Prop :=
  ∃ c d, Owns s.heap ((s.criteria, c) :: (s.collector, d) :: held)

theorem Keeps.value {s : SharedStream α} {held : List (Nat × List α)} (hk : Keeps s held)
    {p : Nat × List α} (hp : p ∈ held) : s.heap.value p.1 = some p.2 := by
  obtain ⟨c, d, ho⟩ := hk
  exact ho.value (by simp [hp])

/-- What a call on the arrays returns where one on the data alone returns `q`. -/
def Returned (held : List (Nat × List α)) (p : Nat × SharedStream α) (q : List α × EStream α) :
    Prop :=
  p.2.stream = q.2 ∧ Keeps p.2 ((p.1, q.1) :: held)

theorem keeps_opened (stream : EStream α) : Keeps (opened stream) [] := by
  obtain ⟨h₁, hm₁, ho₁⟩ := (Owns.empty (β := List α)).make []
  cases hm₁
  obtain ⟨h₂, hm₂, ho₂⟩ := ho₁.make []
  cases hm₂
  exact ⟨[], [], ho₂.perm (.swap _ _ _)⟩

theorem giveBack_sound {how : Return} (h : how.Sound) (data : Nat) (s : SharedStream α) :
    giveBack how data s = .ok (data, s) := by
  match how, h with
  | .elided, _ | .moved true, _ => rfl
  | .moved false, h => exact absurd rfl h

section
variable [DecidableEq α] [StreamTask θ α] [LentTask θ]
variable {s : SharedStream α} {held : List (Nat × List α)} {els : List α}

/-- `read` returns the bytes that a read without arrays returns, in a block of their own. -/
theorem read_both (operation : Option θ) (inclusive : Bool) {u : Nat} (hk : Keeps s held)
    (hu : (u, els) ∈ held) :
    (SharedStream.read u operation inclusive s).Both (Returned held)
      (Stream.read els operation inclusive s.stream) := by
  obtain ⟨c, d, ho⟩ := hk
  obtain ⟨h₁, hcopy, ho₁⟩ := ho.copy (i := u) (v := els) (by simp [hu])
  obtain ⟨h₂, hset, ho₂⟩ := setCriteria_ok (s := { s with heap := h₁ }) ho₁ List.mem_cons_self
  have hview := ho₂.view List.mem_cons_self
  -- the array that was in the criteria is forgotten
  have ho₃ : Owns h₂ ((s.collector, d) :: (u, els) :: (u, els) :: held) := by
    apply Owns.forget (p := (s.criteria, c))
    apply ho₂.perm
    grind
  have hc := collect_both (s := { s with heap := h₂, criteria := u })
    (LoopCriteria.mk' .untilMatch inclusive 0 els) operation ho₃
  have hread : SharedStream.read u operation inclusive s =
      (collect (LoopCriteria.mk' .untilMatch inclusive 0 els) operation
        { s with heap := h₂, criteria := u }).bind fun r =>
          (onHeap (destroy u) r.2).bind fun r' => .ok (r.1, r'.2) := by
    simp [SharedStream.read, onHeap, hcopy, hset, hview]
  rw [hread]
  apply Outcome.Both.bind hc
  intro p q h
  obtain ⟨hs, hcriteria, ho₄⟩ := h
  have ho₅ : Owns p.2.heap
      ((u, els) :: (u, els) :: (p.2.collector, q.1.1) :: (p.1, q.1.1) :: held) := by
    apply ho₄.perm
    grind
  obtain ⟨h₆, hdestroy, ho₆⟩ := ho₅.destroy
  rw [onHeap_ok hdestroy]
  refine .ok ⟨hs, els, q.1.1, ?_⟩
  simpa [hcriteria] using ho₆

/-- `readEls` returns the elements that one without arrays returns, in a block of their own. -/
theorem readEls_both (n : Nat) (operation : Option θ) {how : Return} (h : how.Sound)
    (hk : Keeps s held) :
    (SharedStream.readEls n operation how s).Both (Returned held)
      (EStream.readElsWith n operation s.stream) := by
  unfold SharedStream.readEls EStream.readElsWith
  by_cases hn : n = 0
  · rw [if_pos hn, if_pos hn]
    exact .thrown _
  by_cases hlimit : n > arbitraryLimitBecauseDumb
  · rw [if_neg hn, if_neg hn, if_pos hlimit, if_pos hlimit]
    exact .thrown _
  rw [if_neg hn, if_neg hn, if_neg hlimit, if_neg hlimit]
  obtain ⟨c, d, ho⟩ := hk
  obtain ⟨h₁, hmake, ho₁⟩ := ho.make []
  cases operation with
  | none =>
    simp only [Prog.bind_apply, onHeap_ok hmake, Outcome.bind_ok, onStream, Outcome.bind_assoc]
    apply Outcome.Both.bind_left (.refl (R := Eq) (fun _ => rfl) _)
    intro p q hpq
    subst hpq
    obtain ⟨h₂, hedit, ho₂⟩ := ho₁.edit_own ho.allocated_not_mem (· ++ p.1)
    have hk₂ : Keeps ({ s with stream := p.2, heap := h₂ } : SharedStream α)
        ((s.heap.allocated, p.1) :: held) := by
      refine ⟨c, d, ho₂.perm ?_⟩
      simp only [List.nil_append]
      grind
    simp only [onHeap, hedit, Outcome.bind_ok, giveBack_sound h]
    exact .ok ⟨rfl, hk₂⟩
  | some task =>
    obtain ⟨h₂, hmake₂, ho₂⟩ := ho₁.make []
    obtain ⟨h₃, hset, ho₃⟩ := setCriteria_ok (s := { s with heap := h₂ }) ho₂ List.mem_cons_self
    -- the array that was in the criteria is forgotten
    have ho₄ : Owns h₃ ((s.collector, d) :: (h₁.allocated, []) :: (h₁.allocated, []) ::
        (s.heap.allocated, []) :: held) := by
      apply Owns.forget (p := (s.criteria, c))
      apply ho₃.perm
      grind
    have hc := collect_both (s := { s with heap := h₃, criteria := h₁.allocated })
      (LoopCriteria.mk' .untilNumElements true n []) (some task) ho₄
    simp only [Prog.bind_apply, onHeap, hmake, Outcome.bind_ok, hmake₂, hset]
    apply Outcome.Both.bind hc
    intro p q hcollected
    obtain ⟨hs, hcriteria, ho₅⟩ := hcollected
    have ho₆ : Owns p.2.heap ((s.heap.allocated, []) :: (h₁.allocated, []) :: (h₁.allocated, []) ::
        (p.2.collector, q.1.1) :: (p.1, q.1.1) :: held) := by
      apply ho₅.perm
      grind
    obtain ⟨h₇, hdestroy, ho₇⟩ := ho₆.destroy
    obtain ⟨h₈, hdestroy₂, ho₈⟩ := ho₇.destroy
    have hk₈ : Keeps ({ p.2 with heap := h₈ } : SharedStream α) ((p.1, q.1.1) :: held) := by
      refine ⟨[], q.1.1, ?_⟩
      simpa [hcriteria] using ho₈
    simp only [hdestroy, hdestroy₂, Outcome.bind_ok, giveBack_sound h]
    exact .ok ⟨hs, hk₈⟩

omit [LentTask θ] in
theorem readEls_giveBack (n : Nat) (operation : Option θ) (how : Return) (s : SharedStream α) :
    SharedStream.readEls n operation how s =
      (SharedStream.readEls n operation .elided s).bind fun r => giveBack how r.1 r.2 := by
  have helided : ∀ (data : Nat) (t : SharedStream α), giveBack .elided data t = .ok (data, t) :=
    fun _ _ => rfl
  unfold SharedStream.readEls
  by_cases hn : n = 0
  · rw [if_pos hn, if_pos hn]
    rfl
  by_cases hlimit : n > arbitraryLimitBecauseDumb
  · rw [if_neg hn, if_neg hn, if_pos hlimit, if_pos hlimit]
    rfl
  rw [if_neg hn, if_neg hn, if_neg hlimit, if_neg hlimit]
  cases operation with
  | none => simp only [Prog.bind_apply, Outcome.bind_assoc, helided, Outcome.bind_ok]
  | some task => simp only [Prog.bind_apply, Outcome.bind_assoc, helided, Outcome.bind_ok]

end

section
variable {s : SharedStream α} {held : List (Nat × List α)} {els d : List α}

theorem abandoned_ok (left : EStream α) (junk : List α)
    (ho : Owns s.heap ((s.collector, d) :: held)) :
    ∃ s', abandoned left junk s = .ok ((), s') ∧ s'.criteria = s.criteria ∧
      Owns s'.heap ((s'.collector, junk) :: held) := by
  obtain ⟨h₁, hinit, ho₁, hnew⟩ := initData_ok ho
  obtain ⟨h₂, hedit, ho₂⟩ := ho₁.edit_own hnew (· ++ junk)
  refine ⟨⟨left, h₂, s.criteria, s.heap.allocated⟩, ?_, rfl, ho₂⟩
  simp [abandoned, onHeap, hinit, hedit]

theorem readThrown_ok {u : Nat} (left : EStream α) (junk : List α) (hk : Keeps s held)
    (hu : (u, els) ∈ held) :
    ∃ s', readThrown u left junk s = .ok ((), s') ∧ Keeps s' held := by
  classical
  obtain ⟨c, d, ho⟩ := hk
  obtain ⟨h₁, hcopy, ho₁⟩ := ho.copy (i := u) (v := els) (by simp [hu])
  obtain ⟨h₂, hset, ho₂⟩ := setCriteria_ok (s := { s with heap := h₁ }) ho₁ List.mem_cons_self
  have ho₃ : Owns h₂ ((s.collector, d) :: (u, els) :: (u, els) :: held) := by
    apply Owns.forget (p := (s.criteria, c))
    apply ho₂.perm
    grind
  obtain ⟨s₄, habandoned, hcriteria, ho₄⟩ :=
    abandoned_ok (s := { s with heap := h₂, criteria := u }) left junk ho₃
  have ho₅ : Owns s₄.heap ((u, els) :: (u, els) :: (s₄.collector, junk) :: held) := by
    apply ho₄.perm
    grind
  obtain ⟨h₆, hdestroy, ho₆⟩ := ho₅.destroy
  refine ⟨{ s₄ with heap := h₆ }, ?_, els, junk, ?_⟩
  · simp [readThrown, onHeap, hcopy, hset, habandoned, hdestroy]
  · simpa [hcriteria] using ho₆

theorem readElsThrown_ok (n : Nat) (withTask : Bool) (left : EStream α) (junk : List α)
    (hk : Keeps s held) :
    ∃ s', readElsThrown n withTask left junk s = .ok ((), s') ∧ Keeps s' held := by
  classical
  unfold readElsThrown
  split
  · exact ⟨s, rfl, hk⟩
  obtain ⟨c, d, ho⟩ := hk
  obtain ⟨h₁, hmake, ho₁⟩ := ho.make []
  cases withTask with
  | false =>
    obtain ⟨h₂, hedit, ho₂⟩ := ho₁.edit_own ho.allocated_not_mem (· ++ junk)
    obtain ⟨h₃, hdestroy, ho₃⟩ := ho₂.destroy
    refine ⟨⟨left, h₃, s.criteria, s.collector⟩, ?_, c, d, ho₃⟩
    simp [onHeap, hmake, hedit, hdestroy]
  | true =>
    obtain ⟨h₂, hmake₂, ho₂⟩ := ho₁.make []
    obtain ⟨h₃, hset, ho₃⟩ := setCriteria_ok (s := { s with heap := h₂ }) ho₂ List.mem_cons_self
    have ho₄ : Owns h₃ ((s.collector, d) :: (h₁.allocated, []) :: (h₁.allocated, []) ::
        (s.heap.allocated, []) :: held) := by
      apply Owns.forget (p := (s.criteria, c))
      apply ho₃.perm
      grind
    obtain ⟨s₅, habandoned, hcriteria, ho₅⟩ :=
      abandoned_ok (s := { s with heap := h₃, criteria := h₁.allocated }) left junk ho₄
    have ho₆ : Owns s₅.heap ((h₁.allocated, []) :: (s.heap.allocated, []) ::
        (h₁.allocated, []) :: (s₅.collector, junk) :: held) := by
      apply ho₅.perm
      grind
    obtain ⟨h₇, hdestroy, ho₇⟩ := ho₆.destroy
    obtain ⟨h₈, hdestroy₂, ho₈⟩ := ho₇.destroy
    refine ⟨{ s₅ with heap := h₈ }, ?_, [], junk, ?_⟩
    · simp [onHeap, hmake, hmake₂, hset, habandoned, hdestroy, hdestroy₂]
    · simpa [hcriteria] using ho₈

end

/-! The calls on one stream, and what their callers do with the arrays in between. -/

/-- `held` has an entry for every live handle outside the stream, with what its array is to hold:
what a call returned in it, unless its holders edit it themselves. -/
inductive Reaches [DecidableEq α] : SharedStream α → List (Nat × List α) → Prop
  | opened (stream : EStream α) : Reaches (opened stream) []
  | made {s s' : SharedStream α} {held : List (Nat × List α)} {i : Nat} {els : List α}
      (h : Reaches s held) (hm : onHeap (make els) s = .ok (i, s')) : Reaches s' ((i, els) :: held)
  | copied {s s' : SharedStream α} {held : List (Nat × List α)} {p : Nat × List α}
      (h : Reaches s held) (hp : p ∈ held) (hm : onHeap (copy p.1) s = .ok ((), s')) :
      Reaches s' (p :: held)
  | overwritten {s : SharedStream α} {held held' : List (Nat × List α)} {p : Nat × List α}
      (h : Reaches s (held ++ p :: held')) : Reaches s (held ++ held')
  | destroyed {s s' : SharedStream α} {held held' : List (Nat × List α)} {p : Nat × List α}
      (h : Reaches s (held ++ p :: held')) (hm : onHeap (destroy p.1) s = .ok ((), s')) :
      Reaches s' (held ++ held')
  | edited {s s' : SharedStream α} {held : List (Nat × List α)} {i : Nat} {f : List α → List α}
      (h : Reaches s held) (hi : i ∈ handles held) (hm : onHeap (edit i f) s = .ok ((), s')) :
      Reaches s' (Owns.edited i f held)
  | read {θ : Type} [StreamTask θ α] [LentTask θ] {s s' : SharedStream α}
      {held : List (Nat × List α)} {p : Nat × List α} {operation : Option θ} {inclusive : Bool}
      {data : Nat} {els : List α} (h : Reaches s held) (hp : p ∈ held)
      (hm : read p.1 operation inclusive s = .ok (data, s')) (hv : s'.heap.value data = some els) :
      Reaches s' ((data, els) :: held)
  | readEls {θ : Type} [StreamTask θ α] [LentTask θ] {s s' : SharedStream α}
      {held : List (Nat × List α)} {n : Nat} {operation : Option θ} {how : Return}
      {data : Nat} {els : List α} (h : Reaches s held)
      (hm : readEls n operation how s = .ok (data, s')) (hv : s'.heap.value data = some els) :
      Reaches s' ((data, els) :: held)
  | readThrown {s s' : SharedStream α} {held : List (Nat × List α)} {p : Nat × List α}
      {left : EStream α} {junk : List α} (h : Reaches s held) (hp : p ∈ held)
      (hm : readThrown p.1 left junk s = .ok ((), s')) : Reaches s' held
  | readElsThrown {s s' : SharedStream α} {held : List (Nat × List α)} {n : Nat}
      {withTask : Bool} {left : EStream α} {junk : List α} (h : Reaches s held)
      (hm : readElsThrown n withTask left junk s = .ok ((), s')) : Reaches s' held

section
variable [DecidableEq α] {s : SharedStream α} {held : List (Nat × List α)}

/-- A call that returns has returned its array in one of the sound ways. -/
theorem sound_of_ok [StreamTask θ α] {n : Nat} {operation : Option θ} {how : Return}
    {r : Nat × SharedStream α} (h : readEls n operation how s = .ok r) : how.Sound := by
  rintro rfl
  rw [readEls_giveBack] at h
  obtain ⟨r', -, hgive⟩ := Outcome.bind_eq_ok.mp h
  cases hgive

theorem Reaches.keeps (h : Reaches s held) : Keeps s held := by
  induction h with
  | opened stream => exact keeps_opened stream
  | @made s s' held i els h hm ih =>
    obtain ⟨c, d, ho⟩ := ih
    obtain ⟨h', hmake, ho'⟩ := ho.make els
    rw [onHeap_ok hmake] at hm
    cases hm
    exact ⟨c, d, ho'.perm (by grind)⟩
  | @copied s s' held p h hp hm ih =>
    obtain ⟨c, d, ho⟩ := ih
    obtain ⟨h', hcopy, ho'⟩ := ho.copy (i := p.1) (v := p.2) (by simp [hp])
    rw [onHeap_ok hcopy] at hm
    cases hm
    exact ⟨c, d, ho'.perm (by grind)⟩
  | @overwritten s held held' p h ih =>
    obtain ⟨c, d, ho⟩ := ih
    exact ⟨c, d, Owns.forget (p := p) (ho.perm (by grind))⟩
  | @destroyed s s' held held' p h hm ih =>
    obtain ⟨c, d, ho⟩ := ih
    have hfront : Owns s.heap
        ((p.1, p.2) :: (s.criteria, c) :: (s.collector, d) :: (held ++ held')) :=
      ho.perm (by grind)
    obtain ⟨h', hdestroy, ho'⟩ := hfront.destroy
    rw [onHeap_ok hdestroy] at hm
    cases hm
    exact ⟨c, d, ho'⟩
  | @edited s s' held i f h hi hm ih =>
    obtain ⟨c, d, ho⟩ := ih
    obtain ⟨h', hedit, ho'⟩ := ho.edit (i := i)
      (List.mem_cons_of_mem _ (List.mem_cons_of_mem _ hi)) f
    rw [onHeap_ok hedit] at hm
    cases hm
    -- the editor's array may be the stream's as well
    simp only [Owns.edited_cons] at ho'
    exact ⟨_, _, ho'⟩
  | @read θ _ _ s s' held p operation inclusive data els h hp hm hv ih =>
    have hboth := read_both operation inclusive ih hp
    rw [hm] at hboth
    obtain ⟨q, -, -, hk⟩ := hboth.to_ok
    have hdata := hk.value List.mem_cons_self
    obtain rfl : q.1 = els := Option.some.inj (hdata.symm.trans hv)
    exact hk
  | @readEls θ _ _ s s' held n operation how data els h hm hv ih =>
    have hboth := readEls_both n operation (sound_of_ok hm) ih
    rw [hm] at hboth
    obtain ⟨q, -, -, hk⟩ := hboth.to_ok
    have hdata := hk.value List.mem_cons_self
    obtain rfl : q.1 = els := Option.some.inj (hdata.symm.trans hv)
    exact hk
  | @readThrown s s' held p left junk h hp hm ih =>
    obtain ⟨s₁, hs₁, hk⟩ := readThrown_ok left junk ih hp
    rw [hs₁] at hm
    cases hm
    exact hk
  | @readElsThrown s s' held n withTask left junk h hm ih =>
    obtain ⟨s₁, hs₁, hk⟩ := readElsThrown_ok n withTask left junk ih
    rw [hs₁] at hm
    cases hm
    exact hk

/-- A call returns what the same call on the data alone returns, in a block that is live. -/
def Gives (p : Nat × SharedStream α) (q : List α × EStream α) : Prop :=
  p.2.stream = q.2 ∧ p.2.heap.value p.1 = some q.1

omit [DecidableEq α] in
theorem Returned.gives {p : Nat × SharedStream α} {q : List α × EStream α}
    (h : Returned held p q) : Gives p q :=
  ⟨h.1, h.2.value List.mem_cons_self⟩

/-- A call is that on the data alone, unless it returns its array in the way that is not sound. -/
theorem readEls_gives_iff [StreamTask θ α] [LentTask θ] (hk : Keeps s held) (n : Nat)
    (operation : Option θ) (how : Return) :
    (readEls n operation how s).Both Gives (EStream.readElsWith n operation s.stream) ↔
      (∀ r, EStream.readElsWith n operation s.stream = .ok r → how.Sound) := by
  by_cases hsound : how.Sound
  · exact iff_of_true ((readEls_both n operation hsound hk).mono fun _ _ => Returned.gives)
      fun _ _ => hsound
  · obtain rfl : how = .moved false := not_not.mp hsound
    have helided : (readEls n operation .elided s).Both (Returned held)
        (EStream.readElsWith n operation s.stream) :=
      readEls_both n operation (by simp [Return.Sound]) hk
    rw [readEls_giveBack]
    generalize readEls n operation .elided s = m at helided ⊢
    generalize EStream.readElsWith n operation s.stream = m' at helided ⊢
    cases helided with
    | ok h => exact iff_of_false (fun hboth => nomatch hboth) fun h => hsound (h _ rfl)
    | thrown w => exact iff_of_true (.thrown w) (by simp)
    | undef => exact iff_of_true .undef (by simp)
    | timeout => exact iff_of_true .timeout (by simp)

/-- Whatever calls have been made, every array outside the stream is live and holds what it was
returned with; and no further call, returning or throwing, goes to a block that is released, but for
a `readEls` that returns its array in the way that is not sound. -/
theorem returned_unaliased (h : Reaches s held) :
    (∀ p ∈ held, s.heap.value p.1 = some p.2) ∧
      (∀ {θ : Type} [StreamTask θ α] [LentTask θ] (operation : Option θ),
        (∀ p ∈ held, ∀ inclusive, (read p.1 operation inclusive s).Both Gives
          (Stream.read p.2 operation inclusive s.stream)) ∧
        ∀ n how, (readEls n operation how s).Both Gives
            (EStream.readElsWith n operation s.stream) ↔
          ∀ r, EStream.readElsWith n operation s.stream = .ok r → how.Sound) ∧
      ∀ left junk, (∀ p ∈ held, ∃ s', readThrown p.1 left junk s = .ok ((), s')) ∧
        ∀ n withTask, ∃ s', readElsThrown n withTask left junk s = .ok ((), s') := by
  have hk := h.keeps
  refine ⟨fun p hp => hk.value hp, ?_, ?_⟩
  · intro θ _ _ operation
    constructor
    · intro p hp inclusive
      exact (read_both operation inclusive hk hp).mono fun _ _ => Returned.gives
    · exact fun n how => readEls_gives_iff hk n operation how
  · intro left junk
    constructor
    · intro p hp
      obtain ⟨s', hs', -⟩ := readThrown_ok left junk hk hp
      exact ⟨s', hs'⟩
    · intro n withTask
      obtain ⟨s', hs', -⟩ := readElsThrown_ok n withTask left junk hk
      exact ⟨s', hs'⟩

/-- Two calls on a stream over three bytes. -/
theorem returned_unaliased_twice : ∃ s : SharedStream UInt8, ∃ i j : Nat,
    s.heap.value i = some [1, 2] ∧ s.heap.value j = some [3] := by
  have h₀ : Reaches (opened (EStream.ofBuffer [1, 2, 3] : EStream UInt8)) [] := .opened _
  have h₁ := @Reaches.readEls UInt8 _ (NullTask UInt8) _ _ _ _ _ 2 none .elided _ [1, 2] h₀ rfl rfl
  have h₂ := @Reaches.readEls UInt8 _ (NullTask UInt8) _ _ _ _ _ 1 none (.moved true) _ [3] h₁ rfl
    rfl
  have hheld := (returned_unaliased h₂).1
  exact ⟨_, _, _, hheld _ (List.mem_cons_of_mem _ List.mem_cons_self), hheld _ List.mem_cons_self⟩

/-- The same two bytes, into memory that holds something else than a null pointer. -/
theorem not_unaliased_moved :
    ¬ (readEls 2 (none : Option (NullTask UInt8)) (.moved false)
        (opened (EStream.ofBuffer [1, 2, 3] : EStream UInt8))).Both Gives
      (EStream.readElsWith 2 (none : Option (NullTask UInt8)) (EStream.ofBuffer [1, 2, 3])) := by
  have hcall : readEls 2 (none : Option (NullTask UInt8)) (.moved false)
      (opened (EStream.ofBuffer [1, 2, 3] : EStream UInt8)) = .undef := rfl
  have hreturns : ∃ r, EStream.readElsWith 2 (none : Option (NullTask UInt8))
      (EStream.ofBuffer [1, 2, 3] : EStream UInt8) = .ok r := ⟨_, rfl⟩
  obtain ⟨r, hr⟩ := hreturns
  rw [hcall, hr]
  rintro ⟨⟩

end

end SharedStream
end WylesLibs.Stream
