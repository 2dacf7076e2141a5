import WylesLibs.EStream.Memory
import WylesLibs.StringUtils

/-! The reader tasks that the JSON parser puts on its reads. -/
namespace WylesLibs.Stream
open Library
variable {θ γ κ ρ : Type}

/-- What the messages of the tasks show of a character, between single quotes. -/
def quoteChar (c : UInt8) : String := "'" ++ String.singleton (Char.ofNat c.toNat) ++ "'"

/-- `ReaderTaskChain::next`: the next operation of the chain takes the element, or the collector
does. -/
def chainNext [LoopCriteriaI γ UInt8] [Collector κ UInt8 ρ] [StreamTask θ UInt8]
    (nextOperation : Option θ) (c : UInt8) (criteria : γ) (collector : κ) :
    Outcome (Option θ × γ × κ) :=
  performEl nextOperation c criteria collector

/-- `ReaderTaskChain::flush`. -/
def chainFlush [Collector κ UInt8 ρ] [StreamTask θ UInt8] (nextOperation : Option θ)
    (collector : κ) : Outcome (Option θ × κ) :=
  flushTask nextOperation collector

structure ReaderTaskLC (θ : Type) where
  nextOperation : Option θ

/-- `perform` of the task: capital letters are lowered. -/
def lowerCase (c : UInt8) : UInt8 := if 0x41 ≤ c && c ≤ 0x5A then c + 0x20 else c

instance [StreamTask θ UInt8] : StreamTask (ReaderTaskLC θ) UInt8 where
  init t := t
  perform t c criteria collector :=
    (chainNext t.nextOperation (lowerCase c) criteria collector).bind fun r => .ok (⟨r.1⟩, r.2)
  flush t collector := (chainFlush t.nextOperation collector).bind fun r => .ok (⟨r.1⟩, r.2)

instance [StreamTask θ UInt8] [SettledTask θ] : SettledTask (ReaderTaskLC θ) where
  perform _ _ _ _ := .bind (settled_performEl _ _ _ _) fun _ _ => Outcome.settled_ok _
  steps_perform t t' c criteria criteria' collector collector' h := by
    obtain ⟨⟨next, criteria₁, collector₁⟩, hr, hk⟩ := Outcome.bind_eq_ok.mp h
    cases hk
    exact steps_performEl hr
  flush _ _ := .bind (settled_flushTask _ _) fun _ _ => Outcome.settled_ok _

structure ReaderTaskUC (θ : Type) where
  nextOperation : Option θ

/-- `perform` of the task: small letters are raised. -/
def upperCase (c : UInt8) : UInt8 := if 0x61 ≤ c && c ≤ 0x7A then c - 0x20 else c

instance [StreamTask θ UInt8] : StreamTask (ReaderTaskUC θ) UInt8 where
  init t := t
  perform t c criteria collector :=
    (chainNext t.nextOperation (upperCase c) criteria collector).bind fun r => .ok (⟨r.1⟩, r.2)
  flush t collector := (chainFlush t.nextOperation collector).bind fun r => .ok (⟨r.1⟩, r.2)

instance [StreamTask θ UInt8] [SettledTask θ] : SettledTask (ReaderTaskUC θ) where
  perform _ _ _ _ := .bind (settled_performEl _ _ _ _) fun _ _ => Outcome.settled_ok _
  steps_perform t t' c criteria criteria' collector collector' h := by
    obtain ⟨⟨next, criteria₁, collector₁⟩, hr, hk⟩ := Outcome.bind_eq_ok.mp h
    cases hk
    exact steps_performEl hr
  flush _ _ := .bind (settled_flushTask _ _) fun _ _ => Outcome.settled_ok _

structure ReaderTaskDisallow (θ : Type) where
  nextOperation : Option θ
  toDisallow : List UInt8
  strict : Bool

instance [StreamTask θ UInt8] : StreamTask (ReaderTaskDisallow θ) UInt8 where
  init t := t
  perform t c criteria collector :=
    if c ∈ t.toDisallow then
      if t.strict then .thrown "Banned character found:" else .ok (t, criteria, collector)
    else
      (chainNext t.nextOperation c criteria collector).bind fun r =>
        .ok ({ t with nextOperation := r.1 }, r.2)
  flush t collector :=
    (chainFlush t.nextOperation collector).bind fun r => .ok ({ t with nextOperation := r.1 }, r.2)

instance [StreamTask θ UInt8] [SettledTask θ] : SettledTask (ReaderTaskDisallow θ) where
  perform _ _ _ _ := by
    refine .ite (.ite (Outcome.settled_thrown _) (Outcome.settled_ok _)) ?_
    exact .bind (settled_performEl _ _ _ _) fun _ _ => Outcome.settled_ok _
  steps_perform t t' c criteria criteria' collector collector' h := by
    simp only [StreamTask.perform] at h
    split at h
    · split at h <;> cases h
      rfl
    · obtain ⟨⟨next, criteria₁, collector₁⟩, hr, hk⟩ := Outcome.bind_eq_ok.mp h
      cases hk
      exact steps_performEl hr
  flush _ _ := .bind (settled_flushTask _ _) fun _ _ => Outcome.settled_ok _

structure ReaderTaskAllow (θ : Type) where
  nextOperation : Option θ
  toAllow : List UInt8
  strict : Bool

instance [StreamTask θ UInt8] : StreamTask (ReaderTaskAllow θ) UInt8 where
  init t := t
  perform t c criteria collector :=
    if c ∈ t.toAllow then
      (chainNext t.nextOperation c criteria collector).bind fun r =>
        .ok ({ t with nextOperation := r.1 }, r.2)
    else if t.strict then .thrown "Banned character found:"
    else .ok (t, criteria, collector)
  flush t collector :=
    (chainFlush t.nextOperation collector).bind fun r => .ok ({ t with nextOperation := r.1 }, r.2)

instance [StreamTask θ UInt8] [SettledTask θ] : SettledTask (ReaderTaskAllow θ) where
  perform _ _ _ _ := by
    refine .ite ?_ (.ite (Outcome.settled_thrown _) (Outcome.settled_ok _))
    exact .bind (settled_performEl _ _ _ _) fun _ _ => Outcome.settled_ok _
  steps_perform t t' c criteria criteria' collector collector' h := by
    simp only [StreamTask.perform] at h
    split at h
    · obtain ⟨⟨next, criteria₁, collector₁⟩, hr, hk⟩ := Outcome.bind_eq_ok.mp h
      cases hk
      exact steps_performEl hr
    · split at h <;> cases h
      rfl
  flush _ _ := .bind (settled_flushTask _ _) fun _ _ => Outcome.settled_ok _

structure ReaderTaskExact (θ : Type) where
  nextOperation : Option θ
  wanted : List UInt8
  i : Nat
  strict : Bool
  isMatch : Bool

/-- `flush` overrides that of the chain, so the next operation is not flushed. The position in
the text to match starts anew in `flush` alone. -/
instance [StreamTask θ UInt8] : StreamTask (ReaderTaskExact θ) UInt8 where
  init t := { t with isMatch := true }
  perform t c criteria collector :=
    match t.wanted[t.i]? with
    | none => .thrown "basic_string::at"
    | some m =>
      let t := { t with i := t.i + 1 }
      if m ≠ c then
        if t.strict then .thrown "Invalid character found in exact match:"
        else .ok ({ t with isMatch := false }, LoopCriteriaI.preemptiveBail criteria, collector)
      else
        (chainNext t.nextOperation c criteria collector).bind fun r =>
          .ok ({ t with nextOperation := r.1 }, r.2)
  flush t collector := .ok ({ t with i := 0 }, collector)

instance [StreamTask θ UInt8] [SettledTask θ] : SettledTask (ReaderTaskExact θ) where
  perform t c criteria collector := by
    simp only [StreamTask.perform]
    split
    · exact Outcome.settled_thrown _
    · refine .ite (.ite (Outcome.settled_thrown _) (Outcome.settled_ok _)) ?_
      exact .bind (settled_performEl _ _ _ _) fun _ _ => Outcome.settled_ok _
  steps_perform t t' c criteria criteria' collector collector' h := by
    simp only [StreamTask.perform] at h
    split at h
    · cases h
    · split at h
      · split at h
        · cases h
        · cases h
          exact LoopCriteriaI.steps_preemptiveBail criteria
      · obtain ⟨⟨next, criteria₁, collector₁⟩, hr, hk⟩ := Outcome.bind_eq_ok.mp h
        cases hk
        exact steps_performEl hr
  flush _ _ := Outcome.settled_ok _

def ReaderTaskExact.mk' (wanted : List UInt8) (strict : Bool) : ReaderTaskExact (NullTask UInt8) :=
  ⟨none, wanted, 0, strict, false⟩

structure ReaderTaskTrim where
  rTrim : List UInt8
  lTrimming : Bool
  rTrimming : Bool

namespace ReaderTaskTrim

def mk' : ReaderTaskTrim := ⟨[], false, false⟩

/-- As for `ReaderTaskExtract`, `r_trim` keeps what it holds. -/
def init (t : ReaderTaskTrim) : ReaderTaskTrim := { t with lTrimming := true, rTrimming := false }

section
variable [Collector κ UInt8 ρ]

def rTrimFlush (t : ReaderTaskTrim) (collector : κ) : Outcome (ReaderTaskTrim × κ) :=
  if 0 < t.rTrim.length then
    (Collector.accumulateEls collector t.rTrim).bind fun k => .ok ({ t with rTrimming := false }, k)
  else .ok ({ t with rTrimming := false }, collector)

/-- The criteria play no part in it. -/
def perform (t : ReaderTaskTrim) (c : UInt8) (collector : κ) : Outcome (ReaderTaskTrim × κ) :=
  if t.lTrimming = false then
    if isWhitespace c = true then
      .ok ({ t with rTrimming := true, rTrim := t.rTrim ++ [c] }, collector)
    else if t.rTrimming = true then
      (t.rTrimFlush collector).bind fun r =>
        (Collector.accumulate r.2 c).bind fun k => .ok ({ r.1 with rTrimming := false }, k)
    else (Collector.accumulate collector c).bind fun k => .ok (t, k)
  else if isWhitespace c = false then
    (Collector.accumulate collector c).bind fun k => .ok ({ t with lTrimming := false }, k)
  else .ok (t, collector)

end

instance : StreamTask ReaderTaskTrim UInt8 where
  init := init
  perform t c criteria collector :=
    (t.perform c collector).bind fun r => .ok (r.1, criteria, r.2)
  flush t collector := .ok (t, collector)

instance : SettledTask ReaderTaskTrim where
  perform t c criteria collector := by
    refine .bind ?_ fun _ _ => Outcome.settled_ok _
    refine .ite (.ite (Outcome.settled_ok _) (.ite ?_ ?_)) (.ite ?_ (Outcome.settled_ok _))
    · refine .bind (.ite ?_ (Outcome.settled_ok _)) fun r _ => ?_
      · exact .bind (SettledCollector.accumulateEls _ _) fun _ _ => Outcome.settled_ok _
      · exact .bind (SettledCollector.accumulate _ _) fun _ _ => Outcome.settled_ok _
    · exact .bind (SettledCollector.accumulate _ _) fun _ _ => Outcome.settled_ok _
    · exact .bind (SettledCollector.accumulate _ _) fun _ _ => Outcome.settled_ok _
  steps_perform t t' c criteria criteria' collector collector' h := by
    obtain ⟨r, -, hr⟩ := Outcome.bind_eq_ok.mp h
    cases hr
    rfl
  flush _ _ := Outcome.settled_ok _

end ReaderTaskTrim

structure ReaderTaskExtract where
  rTrim : List UInt8
  lTrimming : Bool
  rTrimming : Bool
  rTrimNonWhitespace : UInt8
  rTrimReadUntil : UInt8
  leftMostChar : UInt8
  rightMostChar : UInt8

namespace ReaderTaskExtract

def mk' (leftMostChar rightMostChar : UInt8) : ReaderTaskExtract :=
  ⟨[], false, false, 0, 0, leftMostChar, rightMostChar⟩

/-- `r_trim` keeps what it holds: it is asked to remove as many bytes as `data` has, and `data`
is always empty. -/
def init (t : ReaderTaskExtract) : ReaderTaskExtract :=
  { t with lTrimming := true, rTrimming := false, rTrimNonWhitespace := 0, rTrimReadUntil := 0 }

section
variable [LoopCriteriaI γ UInt8] [Collector κ UInt8 ρ]

def rTrimFlush (t : ReaderTaskExtract) (collector : κ) : Outcome (ReaderTaskExtract × κ) :=
  if 0 < t.rTrim.length then
    (Collector.accumulateEls collector t.rTrim).bind fun k => .ok ({ t with rTrimming := false }, k)
  else .ok ({ t with rTrimming := false }, collector)

/-- The quotes around the token are left out, and with them all that stands outside them, except
for the element at which the read ends. -/
def perform (t : ReaderTaskExtract) (c : UInt8) (criteria : γ) (collector : κ) :
    Outcome (ReaderTaskExtract × γ × κ) :=
  let atLast := (LoopCriteriaI.state criteria).isAtLast
  if t.lTrimming = false then
    if t.rightMostChar = c then
      .ok ({ t with rTrimming := true, rTrim := t.rTrim ++ [c] }, criteria, collector)
    else if t.rTrimming = true then
      if t.rightMostChar = c then
        (t.rTrimFlush collector).bind fun r =>
          .ok ({ r.1 with rTrim := r.1.rTrim ++ [c], rTrimNonWhitespace := 0 }, criteria, r.2)
      else
        let t := { t with rTrim := t.rTrim ++ [c] }
        if atLast = true then .ok ({ t with rTrimReadUntil := c }, criteria, collector)
        else if isWhitespace c = false then
          .ok ({ t with rTrimNonWhitespace := c }, criteria, collector)
        else .ok (t, criteria, collector)
    else (Collector.accumulate collector c).bind fun k => .ok (t, criteria, k)
  else if isWhitespace c = false then
    if c = t.leftMostChar then .ok ({ t with lTrimming := false }, criteria, collector)
    else if atLast = true then
      (Collector.accumulate collector c).bind fun k => .ok (t, criteria, k)
    else .thrown ("Found non-whitespace char left of token. " ++ quoteChar c)
  else .ok (t, criteria, collector)

/-- Zero stands for no character at all, also where the character read was a zero. -/
def flush (t : ReaderTaskExtract) (collector : κ) : Outcome (ReaderTaskExtract × κ) :=
  if t.rTrimNonWhitespace ≠ 0 then
    .thrown ("Found non-whitespace char right of token. " ++ quoteChar t.rTrimNonWhitespace)
  else if t.lTrimming = false ∧ t.rTrimming = false then .thrown "Found open ended token."
  else if t.rTrimReadUntil ≠ 0 then
    (Collector.accumulate collector t.rTrimReadUntil).bind fun k => .ok (t.init, k)
  else .ok (t.init, collector)

end

instance : StreamTask ReaderTaskExtract UInt8 where
  init := init
  perform := perform
  flush := flush

instance : SettledTask ReaderTaskExtract where
  perform t c criteria collector := by
    have hacc := fun k => SettledCollector.accumulate collector k
    simp only [StreamTask.perform, ReaderTaskExtract.perform, rTrimFlush]
    repeat' refine .ite ?_ ?_
    all_goals first
      | exact Outcome.settled_ok _
      | exact Outcome.settled_thrown _
      | exact .bind (hacc _) fun _ _ => Outcome.settled_ok _
      | refine .bind (.ite (.bind (SettledCollector.accumulateEls _ _) fun _ _ => ?_) ?_) fun _ _ => ?_
        <;> exact Outcome.settled_ok _
  steps_perform t t' c criteria criteria' collector collector' h := by
    simp only [StreamTask.perform, ReaderTaskExtract.perform] at h
    grind [Outcome.bind_eq_ok]
  flush t collector := by
    simp only [StreamTask.flush, ReaderTaskExtract.flush]
    refine .ite (Outcome.settled_thrown _) (.ite (Outcome.settled_thrown _) (.ite ?_ ?_))
    · exact .bind (SettledCollector.accumulate _ _) fun _ _ => Outcome.settled_ok _
    · exact Outcome.settled_ok _

end ReaderTaskExtract
end WylesLibs.Stream
