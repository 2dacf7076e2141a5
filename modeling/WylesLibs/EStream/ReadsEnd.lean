import WylesLibs.Library.Ends
import WylesLibs.EStream.Naturals

/-! What holds once a read of a list has ended, in terms of what the list begins with. -/
namespace WylesLibs.Stream
open Library
variable {l : List UInt8}

theorem get_ends {R : UInt8 × List UInt8 → Prop} :
    (get l).Ends R True ↔ ∀ c rest, l = c :: rest → R (c, rest) := by
  cases l with
  | nil => simp
  | cons c l => simp

theorem readNatural_ends {R : (Nat × Nat) × List UInt8 → Prop} :
    (readNatural l).Ends R True ↔
      ∀ ds c rest, l = ds ++ c :: rest → (∀ d ∈ ds, isDigit d = true) → isDigit c = false →
        ds.length ≤ numberMaxDigits → R ((wrappedValue ds 0, ds.length), c :: rest) := by
  rw [(settles_readNatural l).ends_iff]
  constructor
  · intro h ds c rest hl hds hc hlen
    rw [wrappedValue_digits hds hlen]
    exact h _ (readNatural_iff.mpr ⟨ds, c, rest, hl, rfl, hds, hc, hlen, rfl⟩)
  · intro h p hr
    obtain ⟨r, l'⟩ := p
    obtain ⟨ds, c, rest, hl, rfl, hds, hc, hlen, rfl⟩ := readNatural_iff.mp hr
    have hread := h ds c rest hl hds hc hlen
    rwa [wrappedValue_digits hds hlen] at hread

theorem readNaturalUntil_ends (untilEls : List UInt8) (consume : Bool)
    {R : (Nat × Nat) × List UInt8 → Prop} :
    (readNaturalUntil untilEls consume l).Ends R True ↔
      ∀ pre u rest, l = pre ++ u :: rest → (∀ a ∈ pre, a ∉ untilEls) → u ∈ untilEls →
        pre.length ≤ numberMaxDigits →
          R ((wrappedValue pre 0, pre.length), if consume then rest else u :: rest) := by
  have hsettled := settles_streamCollect (LoopCriteria.mk' .untilMatch false 0 untilEls)
    (none : Option (NullTask UInt8)) (⟨0, 0⟩ : NaturalCollector) l
  have hconsume : ∀ (r : Nat × Nat) (u : UInt8) (rest : List UInt8),
      ((if consume then (do let _ ← get; pure r) else pure r : Prog (List UInt8) (Nat × Nat))
        (u :: rest)) = .ok (r, if consume then rest else u :: rest) := by
    intro r u rest
    cases consume <;> rfl
  rw [readNaturalUntil, Prog.ends_bind, hsettled.ends_iff]
  constructor
  · intro h pre u rest hl hpre hu hlen
    have hread := h _ (streamCollect_natural_until_iff.mpr
      ⟨pre, u, rest, hl, hpre, hu, hlen, rfl, rfl, rfl⟩)
    simp only [hconsume] at hread
    exact hread
  · intro h p hr
    obtain ⟨⟨r, task⟩, l'⟩ := p
    obtain ⟨pre, u, rest, hl, hpre, hu, hlen, rfl, rfl, rfl⟩ :=
      streamCollect_natural_until_iff.mp hr
    simp only [hconsume]
    exact h pre u rest hl hpre hu hlen

theorem readNaturalUntil_one_ends {d : UInt8} {R : (Nat × Nat) × List UInt8 → Prop} :
    (readNaturalUntil [d] true l).Ends R True ↔
      ∀ pre rest, l = pre ++ d :: rest → (∀ a ∈ pre, a ≠ d) → pre.length ≤ numberMaxDigits →
        R ((wrappedValue pre 0, pre.length), rest) := by
  simp only [readNaturalUntil_ends, List.mem_singleton, if_true]
  constructor
  · intro h pre rest hl hpre hlen
    exact h pre d rest hl hpre rfl hlen
  · rintro h pre _ rest hl hpre rfl hlen
    exact h pre rest hl hpre hlen

theorem readNaturalN_ends {n : Nat} {R : (Nat × Nat) × List UInt8 → Prop} (hpos : 0 < n)
    (hn : n ≤ numberMaxDigits) :
    (readNaturalN n l).Ends R True ↔
      ∀ pre rest, l = pre ++ rest → pre.length = n → R ((wrappedValue pre 0, n), rest) := by
  have hsettled := settles_streamCollect (LoopCriteria.mk' .untilNumElements true n ([] : List UInt8))
    (none : Option (NullTask UInt8)) (⟨0, 0⟩ : NaturalCollector) l
  have hlimit : ¬ n > arbitraryLimitBecauseDumb := by
    simp only [numberMaxDigits, arbitraryLimitBecauseDumb] at hn ⊢
    omega
  rw [readNaturalN, if_neg hlimit, if_neg (Nat.ne_of_gt hpos), Prog.ends_bind, hsettled.ends_iff]
  constructor
  · rintro h pre rest rfl rfl
    refine h ((_, none), _) ((streamCollect_natural_num_iff (Nat.ne_of_gt hpos)).mpr
      ⟨hn, by simp, ?_, rfl, ?_⟩)
    · rw [List.take_left]
    · rw [List.drop_left]
  · intro h p hr
    obtain ⟨⟨r, task⟩, l'⟩ := p
    obtain ⟨-, hle, rfl, rfl, rfl⟩ := (streamCollect_natural_num_iff (Nat.ne_of_gt hpos)).mp hr
    refine h _ _ (List.take_append_drop n l).symm ?_
    rw [List.length_take]
    omega

theorem readStringUntil_ends {untilEls : List UInt8} {R : List UInt8 × List UInt8 → Prop} :
    (readStringUntil untilEls (none : Option (NullTask UInt8)) true l).Ends R True ↔
      ∀ pre u rest, l = pre ++ u :: rest → (∀ a ∈ pre, a ∉ untilEls) → u ∈ untilEls →
        seen true pre rest ≤ arbitrarySpatialUntilLimit → R (pre ++ [u], rest) := by
  have hsettled := settles_streamCollect (LoopCriteria.mk' .untilMatch true 0 untilEls)
    (none : Option (NullTask UInt8)) (⟨[]⟩ : ByteStringCollector) l
  have hend : ∀ pre u rest, (readEnd (collected (κ := ByteStringCollector)) true pre u rest
        ((none, ⟨[]⟩) : Option (NullTask UInt8) × ByteStringCollector)).bind finish =
      .ok ((pre ++ [u], none), rest) := by
    intro pre u rest
    simp [readEnd, feed_collected_bytes, collected, Collector.accumulate, finish, flushTask,
      Collector.collect]
  rw [readStringUntil, Prog.ends_bind, hsettled.ends_iff]
  constructor
  · rintro h pre u rest rfl hpre hu hlimit
    exact h _ ((folds_collected.streamCollect_until hpre hu hlimit _ _ trivial).trans
      (hend pre u rest))
  · intro h p hr
    obtain ⟨⟨data, task⟩, l'⟩ := p
    obtain ⟨pre, u, rest, hl, hpre, hu, hlimit, hread⟩ :=
      @Folds.streamCollect_until_inv _ _ _ _ _ _ _ _ _ _ _ folds_collected
        (none : Option (NullTask UInt8)) _ (⟨[]⟩ : ByteStringCollector) _ _ _ trivial hr
    have heq := (hend pre u rest).symm.trans hread
    cases heq
    exact h pre u _ hl hpre hu hlimit

end WylesLibs.Stream
