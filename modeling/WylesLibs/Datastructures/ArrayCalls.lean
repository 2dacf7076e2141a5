import WylesLibs.Datastructures.ArrayList

/-! Histories of calls of `Array`, and of the same calls of a list. -/
namespace WylesLibs.Datastructures
open Library
variable {T : Type}

namespace Array

section
variable {a : Array T} {l els : List T} {pos numEls : Nat}

theorem insert_of_le (h : pos ≤ a.eSize) :
    insert pos els a = Call.become (inserted pos els) a := by
  have hview : Call.view eSize a = (.ok a.eSize, a) := rfl
  rw [insert, Call.bind_of_ok hview, if_neg (by omega)]

theorem append_eq : append els a = insert a.eSize els a := by
  have hview : Call.view eSize a = (.ok a.eSize, a) := rfl
  rw [append, Call.bind_of_ok hview]

theorem remove_of_le (h : (pos + numEls) % sizeRange ≤ a.eSize) :
    remove pos numEls a = Call.become (removed pos numEls) a := by
  have hview : Call.view eSize a = (.ok a.eSize, a) := rfl
  rw [remove, Call.bind_of_ok hview, if_neg (by omega)]

theorem insert_of_lt (h : a.eSize < pos) :
    insert pos els a = (.thrown "Position out of range.", a) := by
  have hview : Call.view eSize a = (.ok a.eSize, a) := rfl
  rw [insert, Call.bind_of_ok hview, if_pos h]
  rfl

theorem remove_of_lt (h : a.eSize < (pos + numEls) % sizeRange) :
    remove pos numEls a = (.thrown "Position out of range.", a) := by
  have hview : Call.view eSize a = (.ok a.eSize, a) := rfl
  rw [remove, Call.bind_of_ok hview, if_pos h]
  rfl

/-- A call that answers, and leaves the contents `l` and the flag `sorted`. -/
structure Leaves (r : Outcome Unit × Array T) (l : List T) (sorted : ArraySort) : Prop where
  answers : r.1 = .ok ()
  represents : Represents r.2 l
  flag : r.2.eSorted = sorted

theorem Leaves.all {r : Outcome Unit × Array T} {sorted : ArraySort} (h : Leaves r l sorted) :
    r.1 = .ok () ∧ Represents r.2 l ∧ r.2.eSorted = sorted :=
  ⟨h.answers, h.represents, h.flag⟩

theorem insert_ok (h : Represents a l) (hpos : pos ≤ l.length) (hn : els ≠ [])
    (hsize : l.length + els.length < 2 ^ 50) :
    Leaves (insert pos els a) (l.take pos ++ (els ++ l.drop pos)) .unsorted := by
  obtain ⟨a', ha', hrep, hflag⟩ := inserted_ok h hpos hn hsize
  rw [insert_of_le (h.size ▸ hpos), Call.become_of_ok ha']
  exact ⟨rfl, hrep, hflag⟩

theorem insert_nil_end (h : Represents a l) : Leaves (insert l.length [] a) l .unsorted := by
  rw [insert_of_le h.size.ge, Call.become_of_ok (inserted_nil_end h)]
  exact ⟨rfl, ⟨h.size, h.filled, h.cap⟩, rfl⟩

theorem append_ok (h : Represents a l) (hsize : l.length + els.length < 2 ^ 50) :
    Leaves (append els a) (l ++ els) .unsorted := by
  rw [append_eq, h.size]
  by_cases hn : els = []
  · simpa [hn] using insert_nil_end h
  · simpa using insert_ok h le_rfl hn hsize

theorem remove_ok (h : Represents a l) (hpos : pos + numEls ≤ l.length)
    (hlen : l.length < 2 ^ 50) :
    Leaves (remove pos numEls a) (l.take pos ++ l.drop (pos + numEls)) a.eSorted := by
  have hwrap : (pos + numEls) % sizeRange ≤ a.eSize := by
    rw [h.size]
    exact (Nat.mod_le _ _).trans hpos
  obtain ⟨a', ha', hrep, hflag⟩ := removed_ok h hpos hlen
  rw [remove_of_le hwrap, Call.become_of_ok ha']
  exact ⟨rfl, hrep, hflag⟩

theorem findFrom_eq [BEq T] {buffer : List (Option T)} (el : T) {n i : Nat}
    (h : Filled buffer l) (hn : i + n = l.length) :
    findFrom buffer el i n =
      .ok (match (l.drop i).findIdx? (· == el) with | some k => (i + k : Nat) | none => -1) := by
  induction n generalizing i with
  | zero => simp [findFrom, List.drop_eq_nil_of_le (by omega : l.length ≤ i)]
  | succ n ih =>
    have hi : i < l.length := by omega
    rw [findFrom, load_of_getElem? (h i _ (List.getElem?_eq_getElem hi)), Outcome.bind_ok,
      List.drop_eq_getElem_cons hi, List.findIdx?_cons]
    cases heq : l[i] == el with
    | true => simp
    | false =>
      rw [ih (by omega)]
      cases (l.drop (i + 1)).findIdx? (· == el) with
      | none => simp
      | some k =>
        simp
        omega

theorem find_eq [BEq T] (h : Represents a l) (el : T) :
    find el a =
      (.ok (match l.findIdx? (· == el) with | some k => (k : Nat) | none => -1), a) := by
  have hfind := findFrom_eq el h.filled (Nat.zero_add l.length)
  rw [find, arrayFind, h.size, hfind]
  simp

theorem removeEl_ok [BEq T] (h : Represents a l) (hlen : l.length < 2 ^ 50) (el : T) :
    Leaves (removeEl el a) (l.eraseP (· == el)) a.eSorted := by
  rw [removeEl, Call.bind_of_ok (find_eq h el), List.eraseP_eq_eraseIdx]
  cases hk : l.findIdx? (· == el) with
  | none => exact ⟨rfl, h, rfl⟩
  | some k =>
    have hlt : k < l.length := (List.findIdx?_eq_some_iff_getElem.mp hk).1
    have hne : ((k : Nat) : Int) ≠ -1 := by omega
    dsimp only
    rw [if_pos hne, Int.toNat_natCast, List.eraseIdx_eq_take_drop_succ]
    exact remove_ok h (by omega) hlen

theorem uniqueAppend_ok [BEq T] (h : Represents a l) (hlen : l.length + 1 < 2 ^ 50) (el : T) :
    Leaves (uniqueAppend el a) (if l.any (· == el) then l else l ++ [el])
      (if l.any (· == el) then a.eSorted else .unsorted) := by
  rw [uniqueAppend, Call.bind_of_ok (find_eq h el), ← List.findIdx?_isSome]
  cases hk : l.findIdx? (· == el) with
  | none => exact append_ok h hlen
  | some k =>
    have hne : ((k : Nat) : Int) ≠ -1 := by omega
    dsimp only
    rw [if_pos hne]
    exact ⟨rfl, h, rfl⟩

theorem removeFront_cons {el : T} (h : Represents a (el :: l)) (hlen : l.length + 1 < 2 ^ 50) :
    Leaves (removeFront a) l a.eSorted := by
  have hview : Call.view eSize a = (.ok a.eSize, a) := rfl
  have hne : a.eSize ≠ 0 := by simp [h.size]
  rw [removeFront, Call.bind_of_ok hview, if_neg hne]
  exact remove_ok h (by simp) hlen

theorem removeBack_ok (h : Represents a l) (hlen : l.length < 2 ^ 50) (hn : l ≠ []) :
    Leaves (removeBack a) l.dropLast a.eSorted := by
  have hpos : 0 < l.length := List.length_pos_iff.mpr hn
  have hview : Call.view eSize a = (.ok a.eSize, a) := rfl
  have hne : a.eSize ≠ 0 := by
    rw [h.size]
    omega
  rw [removeBack, Call.bind_of_ok hview, if_neg hne, h.size]
  have hremove := @remove_ok _ _ _ (l.length - 1) 1 h (by omega) hlen
  rwa [Nat.sub_add_cancel hpos, List.drop_length, List.append_nil, ← List.dropLast_eq_take]
    at hremove

theorem removeFront_nil (h : a.eSize = 0) :
    removeFront a = (.thrown "No element to remove.", a) := by
  have hview : Call.view eSize a = (.ok a.eSize, a) := rfl
  rw [removeFront, Call.bind_of_ok hview, if_pos h]
  rfl

theorem removeBack_nil (h : a.eSize = 0) :
    removeBack a = (.thrown "No element to remove.", a) := by
  have hview : Call.view eSize a = (.ok a.eSize, a) := rfl
  rw [removeBack, Call.bind_of_ok hview, if_pos h]
  rfl

end
end Array

inductive ArrayOp (T : Type) where
  | append (els : List T)
  | insert (pos : Nat) (els : List T)
  | remove (pos numEls : Nat)
  | removeFront
  | removeBack
  | removeEl (el : T)
  | uniqueAppend (el : T)

namespace ArrayOp
variable [BEq T]

def onArray : ArrayOp T → Call (Array T) Unit
  | append els => Array.append els
  | insert pos els => Array.insert pos els
  | remove pos numEls => Array.remove pos numEls
  | removeFront => Array.removeFront
  | removeBack => Array.removeBack
  | removeEl el => Array.removeEl el
  | uniqueAppend el => Array.uniqueAppend el

/-- What the call is for. -/
def onList : ArrayOp T → Call (List T) Unit
  | append els => Call.modify fun l => l ++ els
  | insert pos els => Call.modify fun l => l.take pos ++ (els ++ l.drop pos)
  | remove pos numEls => Call.modify fun l => l.take pos ++ l.drop (pos + numEls)
  | removeFront => Call.become fun l =>
      match l with
      | [] => .thrown "No element to remove."
      | _ :: l => .ok l
  | removeBack => Call.become Datastructures.removeBack
  | removeEl el => Call.modify fun l => l.eraseP (· == el)
  | uniqueAppend el => Call.modify fun l => if l.any (· == el) then l else l ++ [el]

/-- The calls that a client may make of an array with the contents `l`. -/
def Proper (l : List T) : ArrayOp T → Prop
  | append els => l.length + els.length < 2 ^ 50
  | insert pos els => pos ≤ l.length ∧ els ≠ [] ∧ l.length + els.length < 2 ^ 50
  | remove pos numEls => pos + numEls ≤ l.length ∧ l.length < 2 ^ 50
  | uniqueAppend _ => l.length + 1 < 2 ^ 50
  | _ => l.length < 2 ^ 50

/-- The flag after the call: kept where no element is put in. -/
def flagAfter (l : List T) (sorted : ArraySort) : ArrayOp T → ArraySort
  | append _ => .unsorted
  | insert _ _ => .unsorted
  | uniqueAppend el => if l.any (· == el) then sorted else .unsorted
  | _ => sorted

theorem onArray_represents (op : ArrayOp T) {a : Array T} {l : List T} (h : a.Represents l)
    (hop : op.Proper l) :
    (op.onArray a).1 = (op.onList l).1 ∧ (op.onArray a).2.Represents (op.onList l).2 ∧
      (op.onArray a).2.eSorted = op.flagAfter l a.eSorted := by
  cases op with
  | append els => exact (Array.append_ok h hop).all
  | insert pos els => exact (Array.insert_ok h hop.1 hop.2.1 hop.2.2).all
  | remove pos numEls => exact (Array.remove_ok h hop.1 hop.2).all
  | removeEl el => exact (Array.removeEl_ok h hop el).all
  | uniqueAppend el => exact (Array.uniqueAppend_ok h hop el).all
  | removeFront =>
    cases l with
    | nil =>
      rw [onArray, Array.removeFront_nil h.size]
      exact ⟨rfl, h, rfl⟩
    | cons el l => exact (Array.removeFront_cons h hop).all
  | removeBack =>
    by_cases hn : l = []
    · subst hn
      rw [onArray, Array.removeBack_nil h.size]
      exact ⟨rfl, h, rfl⟩
    · have hlen : l.length ≠ 0 := by simpa using hn
      have hlist : onList removeBack l = (.ok (), l.dropLast) :=
        Call.become_of_ok (by rw [Datastructures.removeBack, if_neg hlen])
      rw [hlist]
      exact (Array.removeBack_ok h hop hn).all

theorem settled_onList (op : ArrayOp T) (l : List T) : (op.onList l).1.Settled := by
  cases op with
  | removeFront =>
    cases l with
    | nil => exact Outcome.settled_thrown _
    | cons el l => exact Outcome.settled_ok _
  | removeBack =>
    by_cases hn : l.length = 0
    · simp [onList, Call.become, Datastructures.removeBack, hn]
    · simp [onList, Call.become, Datastructures.removeBack, hn]
  | append els => exact Outcome.settled_ok _
  | insert pos els => exact Outcome.settled_ok _
  | remove pos numEls => exact Outcome.settled_ok _
  | removeEl el => exact Outcome.settled_ok _
  | uniqueAppend el => exact Outcome.settled_ok _

/-- What a call of an array and the same call of a list have in common: the answer, and the
contents afterwards. The cells are as many as the capacity says. -/
structure Agrees (r : Outcome Unit × Array T) (q : Outcome Unit × List T) : Prop where
  answer : r.1 = q.1
  defined : r.1.Settled
  size : r.2.eSize = q.2.length
  contents : Filled r.2.eBuf q.2
  cells : r.2.eBuf.length = r.2.eCap
  within : r.2.eSize ≤ r.2.eCap

end ArrayOp

/-- Through any history of calls an array answers as the list of its contents does, keeps these
contents, and accesses no cell that is not below its capacity. -/
theorem array_refines_list [BEq T] {a : Array T} {l : List T} (h : a.Represents l)
    {ops : List (ArrayOp T)} (hops : Call.Allowed ArrayOp.onList ArrayOp.Proper ops l) :
    List.Forall₂ ArrayOp.Agrees (Call.trace ArrayOp.onArray ops a)
      (Call.trace ArrayOp.onList ops l) := by
  refine Call.trace_related (fun op a l h hop => ?_) (fun r q h => ?_) h hops
  · obtain ⟨hanswer, hrep, -⟩ := op.onArray_represents h hop
    refine ⟨hanswer, hanswer ▸ op.settled_onList l, hrep.size, hrep.filled, hrep.cap, ?_⟩
    rw [hrep.size]
    exact hrep.length_le
  · exact ⟨h.size, h.contents, h.cells⟩

theorem array_refines_list_run :
    List.Forall₂ ArrayOp.Agrees
      (Call.trace ArrayOp.onArray [.append [3, 1], .insert 1 [7, 8], .removeEl 7, .removeFront]
        (Array.withCap 1))
      (Call.trace ArrayOp.onList [.append [3, 1], .insert 1 [7, 8], .removeEl 7, .removeFront]
        ([] : List Nat)) :=
  array_refines_list (Array.represents_withCap 1) (by
    simp [Call.Allowed, ArrayOp.Proper, ArrayOp.onList, Call.modify])

end WylesLibs.Datastructures
