import WylesLibs.EStream.ByteReads

/-! Reading with one element of pushback. A memory-backed stream can give back the element that
`get` took last; so can a list that remembers it. -/
namespace WylesLibs.Stream
open Library

/-- The calls of `ByteEStream` that the formatter makes. -/
class ByteEStreamI (σ : Type) extends EStreamI σ UInt8 where
  unget : Prog σ Unit
  readNatural : Prog σ (Nat × Nat)

/-- A memory-backed `ByteEStream`. Its destructor deletes the criteria and collectors it points
at; `alive` says that no other destructor has done so before. -/
structure ByteEStream where
  stream : EStream UInt8
  alive : Bool

namespace ByteEStream

def ofBuffer (b : List UInt8) : ByteEStream := ⟨EStream.ofBuffer b, true⟩

/-- The defaulted move assignment from a temporary: the pointers are copied, and the temporary,
which keeps them, deletes what they point at when it goes out of scope. -/
def moveAssign (x : ByteEStream) : ByteEStream := { x with alive := false }

/-- A destructor run for the second time on the same objects is undefined. -/
def destroy (s : ByteEStream) : Outcome Unit := if s.alive then .ok () else .undef

@[simp] theorem destroy_ofBuffer (b : List UInt8) : (ofBuffer b).destroy = .ok () := rfl
@[simp] theorem destroy_moveAssign (x : ByteEStream) : x.moveAssign.destroy = .undef := rfl

def onStream {α : Type} (m : Prog (EStream UInt8) α) : Prog ByteEStream α := fun s =>
  (m s.stream).bind fun r => .ok (r.1, { s with stream := r.2 })

instance : EStreamI ByteEStream UInt8 where
  get := onStream get
  peek := onStream peek
  good := onStream good

instance : ByteEStreamI ByteEStream where
  unget := onStream (Prog.modify EStream.unget)
  readNatural := fun s => if s.alive then Stream.readNatural s else .undef

end ByteEStream

/-- What is ahead, and the element an `unget` would bring back. -/
structure Tape where
  ahead : List UInt8
  last : Option UInt8

namespace Tape

instance : EStreamI Tape UInt8 where
  get := fun t =>
    match t.ahead with
    | [] => .thrown endOfData
    | a :: l => .ok (a, ⟨l, some a⟩)
  peek := fun t =>
    match t.ahead with
    | [] => .thrown endOfData
    | a :: _ => .ok (a, t)
  good := fun t => if t.ahead = [] then .ok (false, ⟨[], none⟩) else .ok (true, t)

instance : ByteEStreamI Tape where
  unget := fun t =>
    match t.last with
    | none => .undef
    | some a => .ok ((), ⟨a :: t.ahead, none⟩)
  readNatural := Stream.readNatural

section
variable (a : UInt8) (l : List UInt8) (last : Option UInt8)

@[simp] theorem get_nil : (get : Prog Tape UInt8) ⟨[], last⟩ = .thrown endOfData := rfl
@[simp] theorem get_cons : (get : Prog Tape UInt8) ⟨a :: l, last⟩ = .ok (a, ⟨l, some a⟩) := rfl
@[simp] theorem peek_nil : (peek : Prog Tape UInt8) ⟨[], last⟩ = .thrown endOfData := rfl
@[simp] theorem peek_cons : (peek : Prog Tape UInt8) ⟨a :: l, last⟩ = .ok (a, ⟨a :: l, last⟩) :=
  rfl
@[simp] theorem good_nil : (good : Prog Tape Bool) ⟨[], last⟩ = .ok (false, ⟨[], none⟩) := rfl
@[simp] theorem good_cons : (good : Prog Tape Bool) ⟨a :: l, last⟩ = .ok (true, ⟨a :: l, last⟩) :=
  rfl
@[simp] theorem unget_some :
    (ByteEStreamI.unget : Prog Tape Unit) ⟨l, some a⟩ = .ok ((), ⟨a :: l, none⟩) := rfl

end

/-- A tape reads as the list that is ahead. -/
theorem sim_list : EStreamSim (fun (t : Tape) (l : List UInt8) => t.ahead = l) where
  get := by
    rintro ⟨_ | ⟨a, l⟩, last⟩ _ rfl
    · exact .thrown _
    · exact .ok rfl
  peek := by
    rintro ⟨_ | ⟨a, l⟩, last⟩ _ rfl
    · exact .thrown _
    · exact .ok rfl
  good := by
    rintro ⟨_ | ⟨a, l⟩, last⟩ _ rfl
    · exact .ok rfl
    · exact .ok rfl

theorem readNatural_eq {l l' : List UInt8} {r : Nat × Nat}
    (h : Stream.readNatural l = .ok (r, l')) (last : Option UInt8) :
    ∃ last', (ByteEStreamI.readNatural : Prog Tape _) ⟨l, last⟩ = .ok (r, ⟨l', last'⟩) := by
  have hsim := sim_list.readNatural ⟨l, last⟩ l rfl
  rw [h] at hsim
  obtain ⟨⟨l₁, last'⟩, hs, hl⟩ := hsim.of_ok
  obtain rfl : l₁ = l' := hl
  exact ⟨last', hs⟩

end Tape

/-- The stream stands where the tape does, and can give back what the tape can. -/
structure ByteEStream.Stands (s : ByteEStream) (t : Tape) : Prop where
  alive : s.alive = true
  wellFormed : s.stream.WellFormed
  ahead : s.stream.remaining = t.ahead
  recoverable : ∀ a, t.last = some a → s.stream.Recoverable a

namespace ByteEStream

theorem Stands.ofBuffer (b : List UInt8) : (ofBuffer b).Stands ⟨b, none⟩ where
  alive := rfl
  wellFormed := .ofBuffer b
  ahead := EStream.remaining_ofBuffer b
  recoverable := by simp

theorem onStream_ok {α : Type} {m : Prog (EStream UInt8) α} {s : ByteEStream} {a : α}
    {s' : EStream UInt8} (h : m s.stream = .ok (a, s')) :
    onStream m s = .ok (a, { s with stream := s' }) := by
  simp [onStream, h]

theorem onStream_thrown {α : Type} {m : Prog (EStream UInt8) α} {s : ByteEStream} {w : String}
    (h : m s.stream = .thrown w) : onStream m s = .thrown w := by
  simp [onStream, h]

theorem stands_sim : EStreamSim Stands where
  get := by
    rintro s ⟨_ | ⟨a, l⟩, last⟩ h
    · rw [show get s = _ from onStream_thrown (EStream.get_nil h.wellFormed h.ahead)]
      exact .thrown _
    · obtain ⟨s', hs', h', hrem, hrec⟩ := EStream.get_spec h.wellFormed h.ahead
      rw [show get s = _ from onStream_ok hs']
      refine .ok ⟨h.alive, h', hrem, ?_⟩
      rintro b ⟨⟩
      exact hrec
  peek := by
    rintro s ⟨_ | ⟨a, l⟩, last⟩ h
    · rw [show peek s = _ from onStream_thrown (EStream.peek_nil h.wellFormed h.ahead)]
      exact .thrown _
    · obtain ⟨s', hs', h', hrem, -, hrec⟩ := EStream.peek_spec h.wellFormed h.ahead
      rw [show peek s = _ from onStream_ok hs']
      exact .ok ⟨h.alive, h', hrem, fun b hb => hrec b (h.recoverable b hb)⟩
  good := by
    rintro s ⟨l, last⟩ h
    have hgood := EStream.good_spec h.wellFormed
    rw [show good s = _ from onStream_ok hgood]
    have hrem : s.stream.remaining = l := h.ahead
    have hwell := h.wellFormed.setBadbit (b := s.stream.remaining.isEmpty) (by simp)
    cases l with
    | nil =>
      rw [hrem] at hwell ⊢
      exact .ok ⟨h.alive, hwell, hrem, by simp⟩
    | cons a l =>
      rw [hrem] at hwell ⊢
      refine .ok ⟨h.alive, hwell, hrem, fun b hb => ?_⟩
      have hrec := h.recoverable b hb
      exact ⟨rfl, hrec.atStart, hrec.inside⟩

theorem refines_unget :
    Prog.Refines Stands (ByteEStreamI.unget : Prog ByteEStream Unit) ByteEStreamI.unget := by
  rintro s ⟨l, _ | a⟩ h
  · exact Or.inl rfl
  · obtain ⟨h', hrem⟩ := EStream.unget_spec h.wellFormed (h.recoverable a rfl)
    refine Or.inr (.ok ⟨h.alive, h', ?_, by simp⟩)
    change s.stream.unget.remaining = a :: l
    rw [hrem, h.ahead]

theorem refines_readNatural :
    Prog.Refines Stands (ByteEStreamI.readNatural : Prog ByteEStream _) ByteEStreamI.readNatural := by
  intro s t h
  have hread : (ByteEStreamI.readNatural : Prog ByteEStream _) s = Stream.readNatural s := by
    simp [ByteEStreamI.readNatural, h.alive]
  rw [hread]
  exact Or.inr (stands_sim.readNatural s t h)

end ByteEStream
end WylesLibs.Stream
