import WylesLibs.Datastructures.SortOrder
import WylesLibs.Datastructures.ArrayCalls

/-! `sort` does nothing when the flag says that the array is ordered already. -/
namespace WylesLibs.Datastructures
open Library
variable {T : Type}

namespace Array

def sort [BEq T] [LT T] [DecidableLT T] (sortOrder : ArraySort) : Call (Array T) Unit :=
  Call.become fun a =>
    if sortOrder ≠ .unsorted ∧ a.eSorted ≠ sortOrder then
      (nlognSort sortOrder a.eBuf a.eSize).bind fun eBuf =>
        .ok { a with eBuf, eSorted := sortOrder }
    else
      .ok a

/-- A write through a reference to the element at `pos`. -/
def assign (pos : Nat) (el : T) : Call (Array T) Unit :=
  Call.become fun a => (addElement a.eBuf pos el).bind fun eBuf => .ok { a with eBuf }

/-- `at(pos) = el` -/
def setAt (pos : Nat) (el : T) : Call (Array T) Unit := do
  if pos < (← Call.view eSize) then assign pos el else Call.raise "Invalid position."

/-- `front() = el` -/
def setFront (el : T) : Call (Array T) Unit := do
  if (← Call.view eSize) = 0 then Call.raise "No element to return." else assign 0 el

/-- `back() = el` -/
def setBack (el : T) : Call (Array T) Unit := do
  let size ← Call.view eSize
  if size = 0 then Call.raise "No element to return." else assign (size - 1) el

/-- `operator[](pos) = el`; `fresh` is what `T el;` makes. -/
def setIndex (pos : Nat) (fresh el : T) : Call (Array T) Unit := do
  if pos ≥ (← Call.view eSize) then
    append [fresh]
    assign ((← Call.view eSize) - 1) el
  else
    assign pos el

/-- `operator[](key) = el` -/
def setKey [BEq T] (key el : T) : Call (Array T) Unit := do
  let i ← find key
  if i = -1 then
    append [key]
    assign ((← Call.view eSize) - 1) el
  else
    assign i.toNat el

def contents (a : Array T) : List T := (a.eBuf.take a.eSize).reduceOption

theorem Represents.buffer_eq {a : Array T} {l : List T} (h : Represents a l) :
    a.eBuf = cells l ++ a.eBuf.drop l.length := by
  have hself := written_self h.filled le_rfl (rfl : l.take l.length = l.take l.length)
  rw [written, List.take_length] at hself
  exact hself.symm

theorem reduceOption_cells (l : List T) : (cells l).reduceOption = l := by
  induction l with
  | nil => rfl
  | cons el l ih => rw [cells_cons, List.reduceOption_cons_of_some, ih]

theorem Represents.contents_eq {a : Array T} {l : List T} (h : Represents a l) :
    a.contents = l := by
  rw [contents, h.size, h.buffer_eq, List.take_append_of_le_length (by simp),
    List.take_of_length_le (by simp), reduceOption_cells]

section
variable {a : Array T} {l : List T} {pos : Nat} {el : T}

theorem assign_ok (h : Represents a l) (hpos : pos < l.length) :
    Leaves (assign pos el a) (l.set pos el) a.eSorted := by
  have hroom : pos < a.eBuf.length := hpos.trans_le h.filled.length_le
  have hassign : assign pos el a = (.ok (), { a with eBuf := a.eBuf.set pos (some el) }) :=
    Call.become_of_ok (by rw [addElement, if_pos hroom, Outcome.bind_ok])
  rw [hassign]
  refine ⟨rfl, ⟨?_, ?_, ?_⟩, rfl⟩
  · simpa using h.size
  · intro j e hj
    by_cases heq : pos = j
    · subst heq
      rw [List.getElem?_set_self hpos] at hj
      rw [List.getElem?_set_self hroom, hj]
    · rw [List.getElem?_set_ne heq] at hj
      rw [List.getElem?_set_ne heq]
      exact h.filled j e hj
  · simpa using h.cap

/-- A write behind an element that has just been appended. -/
theorem append_assign_ok {fresh : T} (h : Represents a l) (hlen : l.length + 1 < 2 ^ 50) :
    Leaves ((do
      append [fresh]
      assign ((← Call.view eSize) - 1) el : Call (Array T) Unit) a) (l ++ [el]) .unsorted := by
  have happend := append_ok h (by simpa using hlen : l.length + [fresh].length < 2 ^ 50)
  obtain ⟨b, hb⟩ : ∃ b, append [fresh] a = (.ok (), b) :=
    ⟨_, Prod.ext happend.answers rfl⟩
  rw [hb] at happend
  have hview : Call.view eSize b = (.ok b.eSize, b) := rfl
  rw [Call.bind_of_ok hb, Call.bind_of_ok hview, happend.represents.size]
  have hassign := @assign_ok _ _ _ _ el happend.represents
    (by simp : (l ++ [fresh]).length - 1 < (l ++ [fresh]).length)
  rw [happend.flag] at hassign
  simpa using hassign

end

variable [BEq T] [LT T] [DecidableLT T]

/-- The contents are ordered as the flag says. -/
def OrderedBy (sorted : ArraySort) (l : List T) : Prop :=
  sorted = .unsorted ∨ l.Pairwise fun a b => precedes sorted a b

theorem sort_ok [ElementOrder T] {a : Array T} {l : List T} {sortOrder : ArraySort}
    (h : Represents a l) (ho : OrderedBy a.eSorted l)
    (hroom : sortOrder = .unsorted ∨ a.eSorted = sortOrder ∨
      (overtaken sortOrder l).length ≤ l.length / 2) :
    ∃ l', (sort sortOrder a).1 = .ok () ∧ Represents (sort sortOrder a).2 l' ∧
      OrderedBy (sort sortOrder a).2.eSorted l' ∧
      (sortOrder ≠ .unsorted → l'.Pairwise fun a b => precedes sortOrder a b) := by
  by_cases hs : sortOrder ≠ .unsorted ∧ a.eSorted ≠ sortOrder
  · have hroom' : (overtaken sortOrder l).length ≤ l.length / 2 :=
      (hroom.resolve_left hs.1).resolve_left hs.2
    obtain ⟨sorted, hsort, hstable⟩ := nlognSort_stable l (a.eBuf.drop l.length) hroom'
    rw [← h.buffer_eq] at hsort
    have hok : sort sortOrder a = (.ok (), { a with
        eBuf := cells sorted ++ a.eBuf.drop l.length, eSorted := sortOrder }) :=
      Call.become_of_ok (by rw [if_pos hs, h.size, hsort, Outcome.bind_ok])
    rw [hok]
    have hlen := hstable.perm.length_eq
    refine ⟨sorted, rfl, ⟨?_, ?_, ?_⟩, .inr hstable.ordered, fun _ => hstable.ordered⟩
    · exact h.size.trans hlen.symm
    · exact filled_append sorted _
    · have hle := h.filled.length_le
      rw [← h.cap, List.length_append, length_cells, List.length_drop, hlen]
      omega
  · have hok : sort sortOrder a = (.ok (), a) := Call.become_of_ok (by rw [if_neg hs])
    rw [hok]
    refine ⟨l, rfl, h, ho, fun hne => ?_⟩
    have heq : a.eSorted = sortOrder := by
      by_contra hne'
      exact hs ⟨hne, hne'⟩
    exact heq ▸ ho.resolve_left (heq ▸ hne)

/-- What the flag says is true. -/
def FlagSound (a : Array T) : Prop := ∃ l, Represents a l ∧ OrderedBy a.eSorted l

/-- A call that answers or throws, and after which what the flag says is true. -/
def KeepsFlag (r : Outcome Unit × Array T) : Prop := r.1.Settled ∧ FlagSound r.2

section
omit [BEq T]
variable {a : Array T} {l l' : List T} {r : Outcome Unit × Array T}

theorem Leaves.keepsFlag {sorted : ArraySort} (h : Leaves r l sorted) (ho : OrderedBy sorted l) :
    KeepsFlag r :=
  ⟨h.answers ▸ Outcome.settled_ok (), l, h.represents, h.flag ▸ ho⟩

theorem keepsFlag_thrown (h : Represents a l) (ho : OrderedBy a.eSorted l) (w : String) :
    KeepsFlag (.thrown w, a) := ⟨Outcome.settled_thrown w, l, h, ho⟩

theorem OrderedBy.sublist {sorted : ArraySort} (h : OrderedBy sorted l) (hsub : l'.Sublist l) :
    OrderedBy sorted l' := by
  obtain h | h := h
  · exact .inl h
  · exact .inr (h.sublist hsub)

end
end Array

namespace ArrayOp
variable [BEq T] [LT T] [DecidableLT T]

/-- Calls that are refused, and the one that puts in nothing at the end. -/
def Refused (l : List T) : ArrayOp T → Prop
  | insert pos els => l.length < pos ∨ pos = l.length ∧ els = []
  | remove pos numEls => l.length < (pos + numEls) % Array.sizeRange
  | _ => False

theorem orderedBy_flagAfter {op : ArrayOp T} {l : List T} {sorted : ArraySort}
    (h : Array.OrderedBy sorted l) : Array.OrderedBy (op.flagAfter l sorted) (op.onList l).2 := by
  cases op with
  | append els => exact .inl rfl
  | insert pos els => exact .inl rfl
  | remove pos numEls =>
    have hsub := (List.Sublist.refl (l.take pos)).append
      (List.drop_sublist_drop_left l (Nat.le_add_right pos numEls))
    rw [List.take_append_drop] at hsub
    exact h.sublist hsub
  | removeFront =>
    cases l with
    | nil => exact h
    | cons el l => exact h.sublist (List.sublist_cons_self el l)
  | removeBack =>
    by_cases hl : l.length = 0
    · simpa [flagAfter, onList, Call.become, Datastructures.removeBack, hl] using h
    · simpa [flagAfter, onList, Call.become, Datastructures.removeBack, hl] using
        h.sublist (List.dropLast_sublist l)
  | removeEl el => exact h.sublist List.eraseP_sublist
  | uniqueAppend el =>
    by_cases hany : l.any (· == el)
    · simpa [flagAfter, onList, Call.modify, hany] using h
    · simp [flagAfter, hany, Array.OrderedBy]

theorem keepsFlag {op : ArrayOp T} {a : Array T} {l : List T} (h : a.Represents l)
    (ho : Array.OrderedBy a.eSorted l) (hop : op.Proper l ∨ op.Refused l) :
    Array.KeepsFlag (op.onArray a) := by
  obtain hop | hop := hop
  · obtain ⟨hanswer, hrep, hflag⟩ := op.onArray_represents h hop
    exact ⟨hanswer ▸ op.settled_onList l, _, hrep, hflag ▸ orderedBy_flagAfter ho⟩
  · cases op with
    | insert pos els =>
      obtain hlt | ⟨rfl, rfl⟩ := hop
      · rw [onArray, Array.insert_of_lt (h.size ▸ hlt)]
        exact Array.keepsFlag_thrown h ho _
      · exact (Array.insert_nil_end h).keepsFlag (.inl rfl)
    | remove pos numEls =>
      rw [onArray, Array.remove_of_lt (h.size ▸ hop)]
      exact Array.keepsFlag_thrown h ho _
    | append els => cases hop
    | removeFront => cases hop
    | removeBack => cases hop
    | removeEl el => cases hop
    | uniqueAppend el => cases hop

end ArrayOp

inductive SortedOp (T : Type) where
  | call (op : ArrayOp T)
  | sort (sortOrder : ArraySort)
  | setAt (pos : Nat) (el : T)
  | setFront (el : T)
  | setBack (el : T)
  | setIndex (pos : Nat) (fresh el : T)
  | setKey (key el : T)

namespace SortedOp
variable [BEq T] [LT T] [DecidableLT T]

def onArray : SortedOp T → Call (Array T) Unit
  | call op => op.onArray
  | sort sortOrder => Array.sort sortOrder
  | setAt pos el => Array.setAt pos el
  | setFront el => Array.setFront el
  | setBack el => Array.setBack el
  | setIndex pos fresh el => Array.setIndex pos fresh el
  | setKey key el => Array.setKey key el

/-- A write to the element at `pos`, if there is one, leaves the contents in the order that the
flag promises. -/
def WriteKeeps (a : Array T) (pos : Nat) (el : T) : Prop :=
  Array.OrderedBy a.eSorted (a.contents.set pos el)

/-- The condition on a call, in the state before it. -/
def Meets (a : Array T) : SortedOp T → Prop
  | call op => op.Proper a.contents ∨ op.Refused a.contents
  | sort sortOrder => sortOrder = .unsorted ∨ a.eSorted = sortOrder ∨
      (overtaken sortOrder a.contents).length ≤ a.contents.length / 2
  | setAt pos el => WriteKeeps a pos el
  | setFront el => WriteKeeps a 0 el
  | setBack el => WriteKeeps a (a.contents.length - 1) el
  | setIndex pos _ el =>
      if pos < a.contents.length then WriteKeeps a pos el else a.contents.length + 1 < 2 ^ 50
  | setKey key el =>
      match a.contents.findIdx? (· == key) with
      | some pos => WriteKeeps a pos el
      | none => a.contents.length + 1 < 2 ^ 50

section
variable {a : Array T} {l : List T} {pos : Nat} {el : T}

omit [BEq T] in
theorem keepsFlag_setAt (h : a.Represents l) (ho : Array.OrderedBy a.eSorted l)
    (hw : Array.OrderedBy a.eSorted (l.set pos el)) : Array.KeepsFlag (Array.setAt pos el a) := by
  have hview : Call.view Array.eSize a = (.ok a.eSize, a) := rfl
  rw [Array.setAt, Call.bind_of_ok hview]
  by_cases hlt : pos < a.eSize
  · rw [if_pos hlt]
    exact (Array.assign_ok h (h.size ▸ hlt)).keepsFlag hw
  · rw [if_neg hlt]
    exact Array.keepsFlag_thrown h ho _

omit [BEq T] in
theorem keepsFlag_setFront (h : a.Represents l) (ho : Array.OrderedBy a.eSorted l)
    (hw : Array.OrderedBy a.eSorted (l.set 0 el)) : Array.KeepsFlag (Array.setFront el a) := by
  have hview : Call.view Array.eSize a = (.ok a.eSize, a) := rfl
  rw [Array.setFront, Call.bind_of_ok hview]
  by_cases hz : a.eSize = 0
  · rw [if_pos hz]
    exact Array.keepsFlag_thrown h ho _
  · rw [if_neg hz]
    exact (Array.assign_ok h (by rw [← h.size]; omega)).keepsFlag hw

omit [BEq T] in
theorem keepsFlag_setBack (h : a.Represents l) (ho : Array.OrderedBy a.eSorted l)
    (hw : Array.OrderedBy a.eSorted (l.set (l.length - 1) el)) :
    Array.KeepsFlag (Array.setBack el a) := by
  have hview : Call.view Array.eSize a = (.ok a.eSize, a) := rfl
  rw [Array.setBack, Call.bind_of_ok hview]
  by_cases hz : a.eSize = 0
  · rw [if_pos hz]
    exact Array.keepsFlag_thrown h ho _
  · rw [if_neg hz, h.size]
    exact (Array.assign_ok h (by rw [← h.size]; omega)).keepsFlag hw

omit [BEq T] in
theorem keepsFlag_setIndex {fresh : T} (h : a.Represents l)
    (hw : if pos < l.length then Array.OrderedBy a.eSorted (l.set pos el)
      else l.length + 1 < 2 ^ 50) :
    Array.KeepsFlag (Array.setIndex pos fresh el a) := by
  have hview : Call.view Array.eSize a = (.ok a.eSize, a) := rfl
  rw [Array.setIndex, Call.bind_of_ok hview, h.size]
  by_cases hlt : pos < l.length
  · rw [if_pos hlt] at hw
    rw [if_neg (not_le.mpr hlt)]
    exact (Array.assign_ok h hlt).keepsFlag hw
  · rw [if_neg hlt] at hw
    rw [if_pos (not_lt.mp hlt)]
    exact (Array.append_assign_ok h hw).keepsFlag (.inl rfl)

theorem keepsFlag_setKey {key : T} (h : a.Represents l)
    (hw : match l.findIdx? (· == key) with
      | some pos => Array.OrderedBy a.eSorted (l.set pos el)
      | none => l.length + 1 < 2 ^ 50) :
    Array.KeepsFlag (Array.setKey key el a) := by
  rw [Array.setKey, Call.bind_of_ok (Array.find_eq h key)]
  cases hk : l.findIdx? (· == key) with
  | none =>
    rw [hk] at hw
    exact (Array.append_assign_ok h hw).keepsFlag (.inl rfl)
  | some k =>
    rw [hk] at hw
    have hlt : k < l.length := (List.findIdx?_eq_some_iff_getElem.mp hk).1
    have hne : ¬ ((k : Nat) : Int) = -1 := by omega
    dsimp only
    rw [if_neg hne, Int.toNat_natCast]
    exact (Array.assign_ok h hlt).keepsFlag hw

end

/-- One call that meets its condition. -/
theorem keepsFlag [ElementOrder T] {op : SortedOp T} {a : Array T} (h : a.FlagSound)
    (hop : op.Meets a) : Array.KeepsFlag (op.onArray a) := by
  obtain ⟨l, h, ho⟩ := h
  have hl := h.contents_eq
  subst hl
  cases op with
  | call op => exact ArrayOp.keepsFlag h ho hop
  | sort sortOrder =>
    obtain ⟨l', hok, hrep, hord, -⟩ := Array.sort_ok h ho hop
    exact ⟨by rw [onArray, hok]; exact Outcome.settled_ok (), l', hrep, hord⟩
  | setAt pos el => exact keepsFlag_setAt h ho hop
  | setFront el => exact keepsFlag_setFront h ho hop
  | setBack el => exact keepsFlag_setBack h ho hop
  | setIndex pos fresh el => exact keepsFlag_setIndex h hop
  | setKey key el => exact keepsFlag_setKey h hop

end SortedOp

section
variable [BEq T] [LT T] [DecidableLT T]

/-- After calls that meet their conditions, a sort that meets its own leaves the array ordered. -/
theorem sort_after_history [ElementOrder T] {a : Array T} (h : a.FlagSound)
    {history : List (SortedOp T)} (hhistory : Call.Allowed SortedOp.onArray SortedOp.Meets history a)
    {sortOrder : ArraySort} (ho : sortOrder ≠ .unsorted)
    (hs : (SortedOp.sort sortOrder).Meets (Call.after SortedOp.onArray history a)) :
    ∃ l, (Array.sort sortOrder (Call.after SortedOp.onArray history a)).1 = .ok () ∧
      (Array.sort sortOrder (Call.after SortedOp.onArray history a)).2.Represents l ∧
      l.Pairwise fun a b => precedes sortOrder a b := by
  have hafter : (Call.after SortedOp.onArray history a).FlagSound :=
    Call.after_invariant (I := Array.FlagSound) (fun op b hb hop => (SortedOp.keepsFlag hb hop).2) h hhistory
  obtain ⟨l, hrep, hord⟩ := hafter
  rw [SortedOp.Meets, hrep.contents_eq] at hs
  obtain ⟨l', hok, hrep', -, hsorted⟩ := Array.sort_ok hrep hord hs
  exact ⟨l', hok, hrep', hsorted ho⟩

end

/-- Two elements are put in and sorted, and the last one is replaced by a larger one. -/
def keptHistory : List (SortedOp Nat) := [.call (.append [2, 1]), .sort .ascending, .setBack 3]

theorem sort_after_kept :
    ∃ l, (Array.sort .ascending (Call.after SortedOp.onArray keptHistory (Array.withCap 4))).1 =
        .ok () ∧
      (Array.sort .ascending
        (Call.after SortedOp.onArray keptHistory (Array.withCap 4))).2.Represents l ∧
      l.Pairwise fun a b => precedes .ascending a b := by
  have happend : (ArrayOp.append [2, 1]).Proper (Array.withCap 4 : Array Nat).contents := by
    unfold ArrayOp.Proper
    decide
  have hkept : Call.Allowed SortedOp.onArray SortedOp.Meets keptHistory (Array.withCap 4) :=
    ⟨.inl happend, .inr (.inr (by decide)), .inr (by decide), trivial⟩
  exact sort_after_history ⟨[], Array.represents_withCap 4, .inl rfl⟩ hkept (by decide)
    (.inr (.inl rfl))

/-- The first of two sorted elements is replaced by one that is larger than the second. -/
def spoiltHistory : List (SortedOp Nat) := [.call (.append [1, 2]), .sort .ascending, .setAt 0 5]

theorem sort_skipped :
    ¬ ∀ (history : List (SortedOp Nat)) (sortOrder : ArraySort), sortOrder ≠ .unsorted →
      ∃ l, (Array.sort sortOrder (Call.after SortedOp.onArray history (Array.withCap 4))).1 =
          .ok () ∧
        (Array.sort sortOrder
          (Call.after SortedOp.onArray history (Array.withCap 4))).2.Represents l ∧
        l.Pairwise fun a b => precedes sortOrder a b := by
  intro h
  obtain ⟨l, -, hrep, hsorted⟩ := h spoiltHistory .ascending (by decide)
  have hl : l = [5, 2] := hrep.contents_eq.symm
  subst hl
  exact absurd hsorted (by decide)
end WylesLibs.Datastructures
