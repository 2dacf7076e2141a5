import WylesLibs.EStream.EndOfFile
import WylesLibs.Library.Delimited

/-! A read until a match takes what stands in front of it, whatever comes after: with the exceptions
that the look behind the last element of an inclusive read brings about. -/
namespace WylesLibs.Stream
open Library
variable {α : Type} [DecidableEq α]

section
variable {untilEls pre rest : List α} {u : α} {inclusive : Bool}

/-- On a list: `nextState` must not see more elements than its limit. -/
theorem read_list_iff (hpre : ∀ a ∈ pre, a ∉ untilEls) (hu : u ∈ untilEls) :
    read untilEls (none : Option (NullTask α)) inclusive (pre ++ u :: rest) =
        .ok (pre ++ if inclusive then [u] else [], if inclusive then rest else u :: rest) ↔
      seen inclusive pre rest ≤ arbitrarySpatialUntilLimit := by
  constructor
  · intro h
    obtain ⟨⟨data, task⟩, l, hcollect, hend⟩ := Prog.bind_ok_iff.mp h
    obtain ⟨pre', u', rest', hl, hpre', hu', hlimit, -⟩ :=
      folds_collected.streamCollect_until_inv trivial hcollect
    obtain ⟨rfl, hrest⟩ := delimited_inj (p := fun a => a ∉ untilEls) hpre hpre'
      (not_not.mpr hu) (not_not.mpr hu') hl
    rwa [hrest]
  · exact read_list hpre hu

omit [DecidableEq α] in
theorem seen_le_iff (inclusive : Bool) (pre rest : List α)
    (hk : pre.length + 1 ≤ arbitrarySpatialUntilLimit) :
    seen inclusive pre rest ≤ arbitrarySpatialUntilLimit ↔
      inclusive = true → rest ≠ [] → pre.length + 1 < arbitrarySpatialUntilLimit := by
  unfold seen
  by_cases hi : inclusive = true
  · by_cases hr : rest = []
    · simp [hi, hr, hk]
    · simp [hi, hr]
  · simp [hi, hk]

end

omit [DecidableEq α] in
theorem holds_functional (s : EStream α) (l l' : List α) (h : Holds s l) (h' : Holds s l') :
    l = l' := h.2.symm.trans h'.2

omit [DecidableEq α] in
theorem EStream.holdsFile_functional (s : EStream α) (t t' : FileTail α) (h : s.HoldsFile t)
    (h' : s.HoldsFile t') : t = t' := by
  have heq : t.ahead = t'.ahead := h.remaining.symm.trans h'.remaining
  exact congrArg FileTail.mk heq

/-- The `k`-th element is the first one that matches, and `k` is within the limit. An inclusive
read of the elements up to it needs one more step when there is another element, and fails when the
descriptor is at its end without `poll` saying so. -/
theorem read_until_prefix {untilEls pre rest : List α} {u : α} (hpre : ∀ a ∈ pre, a ∉ untilEls)
    (hu : u ∈ untilEls) (hk : pre.length + 1 ≤ arbitrarySpatialUntilLimit) (s : EStream α) :
    (Holds s (pre ++ u :: rest) →
      ((∃ s', read untilEls (none : Option (NullTask α)) true s = .ok (pre ++ [u], s') ∧
        Holds s' rest) ↔ rest = [] ∨ pre.length + 1 < arbitrarySpatialUntilLimit) ∧
      ∃ s', read untilEls (none : Option (NullTask α)) false s = .ok (pre, s') ∧
        Holds s' (u :: rest)) ∧
    (s.HoldsFile ⟨pre ++ u :: rest⟩ →
      ((∃ s', read untilEls (none : Option (NullTask α)) true s = .ok (pre ++ [u], s') ∧
        s'.HoldsFile ⟨rest⟩) ↔ rest ≠ [] ∧ pre.length + 1 < arbitrarySpatialUntilLimit) ∧
      ∃ s', read untilEls (none : Option (NullTask α)) false s = .ok (pre, s') ∧
        s'.HoldsFile ⟨u :: rest⟩) := by
  have hlist := fun inclusive => (@read_list_iff _ _ _ _ rest _ inclusive hpre hu).trans
    (seen_le_iff inclusive pre rest hk)
  have hyes := hlist true
  have hno := hlist false
  simp only [Bool.false_eq_true, if_false, if_true, List.append_nil, false_implies, iff_true,
    true_implies] at hyes hno
  refine ⟨fun h => ⟨?_, ?_⟩, fun h => ⟨?_, ?_⟩⟩
  · rw [(holds_sim.read untilEls (none : Option (NullTask α)) true).ok_iff holds_functional h, hyes]
    exact or_iff_not_imp_left.symm
  · exact ((holds_sim.read untilEls (none : Option (NullTask α)) false).ok_iff holds_functional
      h).mpr hno
  · rw [(EStream.file_sim.read untilEls (none : Option (NullTask α)) true).ok_iff
      EStream.holdsFile_functional h, FileTail.read_iff, hyes]
    tauto
  · refine ((EStream.file_sim.read untilEls (none : Option (NullTask α)) false).ok_iff
      EStream.holdsFile_functional h).mpr (FileTail.read_iff.mpr ⟨hno, by simp⟩)

theorem read_until_prefix_buffer :
    ∃ s', read [32] (none : Option (NullTask UInt8)) true (EStream.ofBuffer [97, 32, 98]) =
      .ok ([97, 32], s') ∧ Holds s' [98] := by
  have hpre : ∀ a ∈ ([97] : List UInt8), a ∉ ([32] : List UInt8) := by simp
  have hu : (32 : UInt8) ∈ ([32] : List UInt8) := by decide
  have hk : ([97] : List UInt8).length + 1 < arbitrarySpatialUntilLimit := by
    simp [arbitrarySpatialUntilLimit]
  have hholds : Holds (EStream.ofBuffer [97, 32, 98]) ([97] ++ (32 : UInt8) :: [98]) :=
    holds_ofBuffer [97, 32, 98]
  exact (( read_until_prefix hpre hu hk.le _).1 hholds).1.mpr (Or.inr hk)

/-- The last byte of a file is the one that is looked for. -/
theorem read_until_last_thrown :
    ¬ ∀ (untilEls pre rest : List UInt8) (u : UInt8) (s : EStream UInt8),
      (∀ a ∈ pre, a ∉ untilEls) → u ∈ untilEls → pre.length + 1 ≤ arbitrarySpatialUntilLimit →
      s.HoldsFile ⟨pre ++ u :: rest⟩ →
      ∃ s', read untilEls (none : Option (NullTask UInt8)) true s = .ok (pre ++ [u], s') ∧
        s'.HoldsFile ⟨rest⟩ := by
  intro h
  have hchunks : ∀ c ∈ ([[97, 32]] : List (List UInt8)), c ≠ [] ∧ c.length ≤ 8 := by decide
  obtain ⟨s, -, hfile⟩ := EStream.holdsFile_ofFd (by decide) hchunks
  obtain ⟨s', hread, hend⟩ := h [32] [97] [] 32 s (by simp) (by decide)
    (by simp [arbitrarySpatialUntilLimit]) hfile
  have htail := ((EStream.file_sim.read [32] (none : Option (NullTask UInt8)) true).ok_iff
    EStream.holdsFile_functional hfile).mp ⟨s', hread, hend⟩
  exact (FileTail.read_iff.mp htail).2 rfl

end WylesLibs.Stream
