import WylesLibs.EStream.Chains
import WylesLibs.EStream.Extract
import WylesLibs.EStream.Trim

/-! Reads one after the other through the same tasks: chains, and what their last task keeps. -/
namespace WylesLibs.Stream
open Library
variable {α β γ κ ρ θ : Type}

/-! A read by the elements it takes, each with whether it was the last one. -/

def feedMarks (upd : Bool → α → β → Outcome β) (ms : List (α × Bool)) : β → Outcome β :=
  feed (fun m => upd m.2 m.1) ms

theorem feedMarks_cons (upd : Bool → α → β → Outcome β) (a : α) (last : Bool)
    (ms : List (α × Bool)) (p : β) :
    feedMarks upd ((a, last) :: ms) p = (upd last a p).bind (feedMarks upd ms) := rfl

section
variable [LoopCriteriaI γ α] [Collector κ α ρ] [StreamTask θ α]
  {P : Option θ × κ → Prop} {upd : Bool → α → Option θ × κ → Outcome (Option θ × κ)}

/-- With another task or collector that takes the elements of a read, the read ends where it did. -/
theorem Folds.collectLoop_marks (hf : Folds P upd) {n : Nat} {el : α} {criteria : γ}
    {p q : Option θ × κ} {s s' : EStream α} {l : List α} (h : Contains s l) (hp : P p)
    (hel : l.head? = some el) (hloop : collectLoop n el criteria p.1 p.2 s = .ok (q, s')) :
    ∃ ms l', l = ms.map Prod.fst ++ l' ∧ Contains s' l' ∧ feedMarks upd ms p = .ok q ∧
      ∀ p₁ q₁, P p₁ → feedMarks upd ms p₁ = .ok q₁ →
        collectLoop n el criteria p₁.1 p₁.2 s = .ok (q₁, s') := by
  induction n generalizing el criteria p l s with
  | zero => simp [collectLoop] at hloop
  | succ n ih =>
    obtain ⟨⟨st, criteria'⟩, t, hlift, hturn⟩ := Prog.bind_ok_iff.mp hloop
    obtain ⟨r, hnext, hr⟩ := Outcome.bind_eq_ok.mp hlift
    cases hr
    cases hg : st.isGood with
    | false =>
      simp only [hg, Bool.false_eq_true, if_false, Prog.pure_apply] at hturn
      cases hturn
      refine ⟨[], l, rfl, h, rfl, ?_⟩
      intro p₁ q₁ _ hq₁
      cases hq₁
      simp [collectLoop, hnext, hg]
    | true =>
      cases l with
      | nil => simp at hel
      | cons a l =>
        obtain rfl : a = el := by simpa using hel
        obtain ⟨s₁, hget, h₁⟩ := h.get
        obtain ⟨more, s₂, hgood, h₂, hmore⟩ := h₁.good
        -- one turn, for any task and collector
        have hstep : ∀ p₁ : Option θ × κ, P p₁ →
            collectLoop (n + 1) a criteria p₁.1 p₁.2 s =
              (upd (LoopCriteriaI.state criteria').isAtLast a p₁).bind fun q₁ =>
                if more = false ∧ (LoopCriteriaI.state criteria').isAtLast = true then .ok (q₁, s₂)
                else (peek s₂).bind fun r => collectLoop n r.1 criteria' q₁.1 q₁.2 r.2 := by
          intro p₁ hp₁
          simp only [collectLoop, Prog.bind_apply, Prog.lift_apply, hnext, Outcome.bind_ok, hg,
            if_true, hget, hf.perform a p₁ criteria' hp₁]
          cases upd (LoopCriteriaI.state criteria').isAtLast a p₁ with
          | thrown w => rfl
          | undef => rfl
          | timeout => rfl
          | ok q₁ =>
            simp only [Outcome.bind_ok, hgood]
            split
            · rfl
            · rfl
        rw [hstep p hp] at hloop
        obtain ⟨p', hp', hend⟩ := Outcome.bind_eq_ok.mp hloop
        by_cases hlast : more = false ∧ (LoopCriteriaI.state criteria').isAtLast = true
        · rw [if_pos hlast] at hend
          cases hend
          refine ⟨[(a, (LoopCriteriaI.state criteria').isAtLast)], l, rfl, h₂, ?_, ?_⟩
          · rw [feedMarks_cons, hp']
            rfl
          · intro p₁ q₁ hp₁ hq₁
            rw [feedMarks_cons] at hq₁
            obtain ⟨p₂, hp₂, hnil⟩ := Outcome.bind_eq_ok.mp hq₁
            cases hnil
            rw [hstep p₁ hp₁, hp₂, Outcome.bind_ok, if_pos hlast]
        · rw [if_neg hlast] at hend
          cases l with
          | nil =>
            obtain ⟨w, hpeek⟩ := h₂.peek_nil
            rw [hpeek] at hend
            cases hend
          | cons b l =>
            obtain ⟨s₃, hpeek, h₃⟩ := h₂.peek
            rw [hpeek, Outcome.bind_ok] at hend
            obtain ⟨ms, l', hl, h', hfeed, hsame⟩ := ih h₃ (hf.keeps _ _ _ _ hp hp') rfl hend
            refine ⟨(a, (LoopCriteriaI.state criteria').isAtLast) :: ms, l', ?_, h', ?_, ?_⟩
            · rw [hl]
              rfl
            · rw [feedMarks_cons, hp', Outcome.bind_ok, hfeed]
            · intro p₁ q₁ hp₁ hq₁
              rw [feedMarks_cons] at hq₁
              obtain ⟨p₂, hp₂, hrest⟩ := Outcome.bind_eq_ok.mp hq₁
              rw [hstep p₁ hp₁, hp₂, Outcome.bind_ok, if_neg hlast, hpeek]
              exact hsame p₂ q₁ (hf.keeps _ _ _ _ hp₁ hp₂) hrest

/-- The same for a whole read. -/
theorem Folds.streamCollect_marks (hf : Folds P upd) {criteria : γ} {t : θ} {task : Option θ}
    {k : κ} {data : ρ} {s s' : EStream α} {l : List α} (h : Contains s l)
    (hp : P (some (StreamTask.init t), Collector.init k))
    (hread : streamCollect criteria (some t) k s = .ok ((data, task), s')) :
    ∃ ms l' q r, l = ms.map Prod.fst ++ l' ∧ Contains s' l' ∧
      feedMarks upd ms (some (StreamTask.init t), Collector.init k) = .ok q ∧
      flushTask q.1 q.2 = .ok r ∧ task = r.1 ∧ data = Collector.collect r.2 ∧
      ∀ t₁ q₁ r₁, P (some (StreamTask.init t₁), Collector.init k) →
        feedMarks upd ms (some (StreamTask.init t₁), Collector.init k) = .ok q₁ →
        flushTask q₁.1 q₁.2 = .ok r₁ →
        streamCollect criteria (some t₁) k s = .ok ((Collector.collect r₁.2, r₁.1), s') := by
  obtain ⟨el, s₁, hpeek, hloop⟩ := Prog.bind_ok_iff.mp hread
  obtain ⟨q, s₂, hloop, hflush⟩ := Prog.bind_ok_iff.mp hloop
  obtain ⟨r, s₃, hlift, hend⟩ := Prog.bind_ok_iff.mp hflush
  obtain ⟨r', hr, hr'⟩ := Outcome.bind_eq_ok.mp hlift
  cases hr'
  cases hend
  cases l with
  | nil =>
    obtain ⟨w, hnil⟩ := h.peek_nil
    rw [hnil] at hpeek
    cases hpeek
  | cons a l =>
    obtain ⟨s₄, hcons, h₁⟩ := h.peek
    rw [hcons] at hpeek
    cases hpeek
    obtain ⟨ms, l', hms, h', hfeed, hsame⟩ := hf.collectLoop_marks h₁ hp rfl hloop
    refine ⟨ms, l', q, r, hms, h', hfeed, hr, rfl, rfl, ?_⟩
    intro t₁ q₁ r₁ hp₁ hfeed₁ hr₁
    have hloop₁ := hsame _ _ hp₁ hfeed₁
    simp [streamCollect, hcons, hloop₁, hr₁]

end

/-! Chains. -/

/-- A task that does not hand on what it is given. -/
inductive LastTask where
  | trim (t : ReaderTaskTrim)
  | extract (t : ReaderTaskExtract)

instance : StreamTask LastTask UInt8 where
  init t :=
    match t with
    | .trim t => .trim (StreamTask.init t)
    | .extract t => .extract (StreamTask.init t)
  perform t c criteria collector :=
    match t with
    | .trim t => (StreamTask.perform t c criteria collector).bind fun r => .ok (.trim r.1, r.2)
    | .extract t =>
      (StreamTask.perform t c criteria collector).bind fun r => .ok (.extract r.1, r.2)
  flush t collector :=
    match t with
    | .trim t => (StreamTask.flush t collector).bind fun r => .ok (.trim r.1, r.2)
    | .extract t => (StreamTask.flush t collector).bind fun r => .ok (.extract r.1, r.2)

instance : SettledTask LastTask where
  perform t c criteria collector := by
    cases t with
    | trim t => exact .bind (SettledTask.perform t c _ _) fun _ _ => Outcome.settled_ok _
    | extract t => exact .bind (SettledTask.perform t c _ _) fun _ _ => Outcome.settled_ok _
  steps_perform t t' c criteria criteria' collector collector' h := by
    cases t with
    | trim t =>
      obtain ⟨⟨t₁, criteria₁, collector₁⟩, hr, heq⟩ := Outcome.bind_eq_ok.mp h
      cases heq
      exact SettledTask.steps_perform t t₁ c _ _ _ _ hr
    | extract t =>
      obtain ⟨⟨t₁, criteria₁, collector₁⟩, hr, heq⟩ := Outcome.bind_eq_ok.mp h
      cases heq
      exact SettledTask.steps_perform t t₁ c _ _ _ _ hr
  flush t collector := by
    cases t with
    | trim t => exact .bind (SettledTask.flush t _) fun _ _ => Outcome.settled_ok _
    | extract t => exact .bind (SettledTask.flush t _) fun _ _ => Outcome.settled_ok _

/-- A task that hands on to the next one, with the fields that are its own. -/
inductive Link where
  | lc
  | uc
  | disallow (toDisallow : List UInt8) (strict : Bool)
  | allow (toAllow : List UInt8) (strict : Bool)

/-- The type of the task at the head of a chain. -/
def Linked : List Link → Type
  | [] => LastTask
  | .lc :: links => ReaderTaskLC (Linked links)
  | .uc :: links => ReaderTaskUC (Linked links)
  | .disallow _ _ :: links => ReaderTaskDisallow (Linked links)
  | .allow _ _ :: links => ReaderTaskAllow (Linked links)

instance linkedTask : (links : List Link) → StreamTask (Linked links) UInt8
  | [] => inferInstanceAs (StreamTask LastTask UInt8)
  | .lc :: links =>
    have := linkedTask links
    inferInstanceAs (StreamTask (ReaderTaskLC (Linked links)) UInt8)
  | .uc :: links =>
    have := linkedTask links
    inferInstanceAs (StreamTask (ReaderTaskUC (Linked links)) UInt8)
  | .disallow _ _ :: links =>
    have := linkedTask links
    inferInstanceAs (StreamTask (ReaderTaskDisallow (Linked links)) UInt8)
  | .allow _ _ :: links =>
    have := linkedTask links
    inferInstanceAs (StreamTask (ReaderTaskAllow (Linked links)) UInt8)

instance settledLinked : (links : List Link) → SettledTask (Linked links)
  | [] => inferInstanceAs (SettledTask LastTask)
  | .lc :: links =>
    have := settledLinked links
    inferInstanceAs (SettledTask (ReaderTaskLC (Linked links)))
  | .uc :: links =>
    have := settledLinked links
    inferInstanceAs (SettledTask (ReaderTaskUC (Linked links)))
  | .disallow _ _ :: links =>
    have := settledLinked links
    inferInstanceAs (SettledTask (ReaderTaskDisallow (Linked links)))
  | .allow _ _ :: links =>
    have := settledLinked links
    inferInstanceAs (SettledTask (ReaderTaskAllow (Linked links)))

/-- The tasks put one behind the other. -/
def chain : (links : List Link) → LastTask → Linked links
  | [], t => t
  | .lc :: links, t => (⟨some (chain links t)⟩ : ReaderTaskLC (Linked links))
  | .uc :: links, t => (⟨some (chain links t)⟩ : ReaderTaskUC (Linked links))
  | .disallow toDisallow strict :: links, t =>
    (⟨some (chain links t), toDisallow, strict⟩ : ReaderTaskDisallow (Linked links))
  | .allow toAllow strict :: links, t =>
    (⟨some (chain links t), toAllow, strict⟩ : ReaderTaskAllow (Linked links))

/-- The last task once the head of the chain is initialised: no link hands this on. -/
def initialized : List Link → LastTask → LastTask
  | [], t => StreamTask.init t
  | _ :: _, t => t

/-- What comes of a byte on its way to the last task. -/
def handsOn : List Link → UInt8 → Outcome (Option UInt8)
  | [], c => .ok (some c)
  | .lc :: links, c => handsOn links (lowerCase c)
  | .uc :: links, c => handsOn links (upperCase c)
  | .disallow toDisallow strict :: links, c =>
    if c ∈ toDisallow then if strict then .thrown "Banned character found:" else .ok none
    else handsOn links c
  | .allow toAllow strict :: links, c =>
    if c ∈ toAllow then handsOn links c
    else if strict then .thrown "Banned character found:"
    else .ok none

section
variable [LoopCriteriaI γ UInt8] [Collector κ UInt8 ρ] (links : List Link) (t : LastTask)

theorem init_chain : StreamTask.init (chain links t) = chain links (initialized links t) := by
  cases links with
  | nil => rfl
  | cons link links => cases link <;> rfl

omit [LoopCriteriaI γ UInt8] [Collector κ UInt8 ρ] in
theorem chain_inj {t u : LastTask} (h : chain links t = chain links u) : t = u := by
  induction links with
  | nil => exact h
  | cons link links ih =>
    cases link with
    | lc => exact ih (Option.some.inj (congrArg ReaderTaskLC.nextOperation h))
    | uc => exact ih (Option.some.inj (congrArg ReaderTaskUC.nextOperation h))
    | disallow _ _ => exact ih (Option.some.inj (congrArg ReaderTaskDisallow.nextOperation h))
    | allow _ _ => exact ih (Option.some.inj (congrArg ReaderTaskAllow.nextOperation h))

theorem perform_chain (c : UInt8) (criteria : γ) (k : κ) :
    StreamTask.perform (chain links t) c criteria k =
      (handsOn links c).bind fun o =>
        match o with
        | none => .ok (chain links t, criteria, k)
        | some b =>
          (StreamTask.perform t b criteria k).bind fun r => .ok (chain links r.1, r.2) := by
  induction links generalizing c with
  | nil => exact (Outcome.bind_ok_right _).symm
  | cons link links ih =>
    -- a link hands a byte on to the chain behind it
    have hnext : ∀ (b : UInt8) {η : Type} (f : Option (Linked links) → η),
        ((chainNext (some (chain links t)) b criteria k).bind fun r => .ok (f r.1, r.2)) =
          (handsOn links b).bind fun o =>
            match o with
            | none => .ok (f (some (chain links t)), criteria, k)
            | some b =>
              (StreamTask.perform t b criteria k).bind fun r =>
                .ok (f (some (chain links r.1)), r.2) := by
      intro b η f
      rw [chainNext, performEl_some, ih, Outcome.bind_assoc, Outcome.bind_assoc]
      refine congrArg _ (funext fun o => ?_)
      cases o with
      | none => rfl
      | some b => simp only [Outcome.bind_assoc, Outcome.bind_ok]
    cases link with
    | lc => exact hnext (lowerCase c) fun next => (⟨next⟩ : ReaderTaskLC (Linked links))
    | uc => exact hnext (upperCase c) fun next => (⟨next⟩ : ReaderTaskUC (Linked links))
    | disallow toDisallow strict =>
      have hhead :
          StreamTask.perform (chain (.disallow toDisallow strict :: links) t) c criteria k =
          if c ∈ toDisallow then
            if strict then .thrown "Banned character found:"
            else .ok (chain (.disallow toDisallow strict :: links) t, criteria, k)
          else
            (chainNext (some (chain links t)) c criteria k).bind fun r =>
              .ok ((⟨r.1, toDisallow, strict⟩ : ReaderTaskDisallow (Linked links)), r.2) := rfl
      rw [hhead, handsOn]
      by_cases hc : c ∈ toDisallow
      · rw [if_pos hc, if_pos hc]
        cases strict <;> rfl
      · rw [if_neg hc, if_neg hc]
        exact hnext c fun next => (⟨next, toDisallow, strict⟩ : ReaderTaskDisallow (Linked links))
    | allow toAllow strict =>
      have hhead : StreamTask.perform (chain (.allow toAllow strict :: links) t) c criteria k =
          if c ∈ toAllow then
            (chainNext (some (chain links t)) c criteria k).bind fun r =>
              .ok ((⟨r.1, toAllow, strict⟩ : ReaderTaskAllow (Linked links)), r.2)
          else if strict then .thrown "Banned character found:"
          else .ok (chain (.allow toAllow strict :: links) t, criteria, k) := rfl
      rw [hhead, handsOn]
      by_cases hc : c ∈ toAllow
      · rw [if_pos hc, if_pos hc]
        exact hnext c fun next => (⟨next, toAllow, strict⟩ : ReaderTaskAllow (Linked links))
      · rw [if_neg hc, if_neg hc]
        cases strict <;> rfl

theorem flush_chain (k : κ) :
    StreamTask.flush (chain links t) k =
      (StreamTask.flush t k).bind fun r => .ok (chain links r.1, r.2) := by
  induction links with
  | nil => exact (Outcome.bind_ok_right _).symm
  | cons link links ih =>
    have hnext : ∀ {η : Type} (f : Option (Linked links) → η),
        ((chainFlush (some (chain links t)) k).bind fun r => .ok (f r.1, r.2)) =
          (StreamTask.flush t k).bind fun r => .ok (f (some (chain links r.1)), r.2) := by
      intro η f
      rw [chainFlush, flushTask_some, ih]
      simp only [Outcome.bind_assoc, Outcome.bind_ok]
    cases link with
    | lc => exact hnext fun next => (⟨next⟩ : ReaderTaskLC (Linked links))
    | uc => exact hnext fun next => (⟨next⟩ : ReaderTaskUC (Linked links))
    | disallow toDisallow strict =>
      exact hnext fun next => (⟨next, toDisallow, strict⟩ : ReaderTaskDisallow (Linked links))
    | allow toAllow strict =>
      exact hnext fun next => (⟨next, toAllow, strict⟩ : ReaderTaskAllow (Linked links))

/-! What a chain makes of the elements of a read: its last task gets what the links hand on. -/

/-- What the last task makes of a byte, given whether it is the last one. -/
def lastStep (last : Bool) (c : UInt8) (p : LastTask × κ) : Outcome (LastTask × κ) :=
  (StreamTask.perform p.1 c (criteriaAt last) p.2).bind fun r => .ok (r.1, r.2.2)

def chainStep (links : List Link) (last : Bool) (c : UInt8) (p : Option (Linked links) × κ) :
    Outcome (Option (Linked links) × κ) :=
  (performEl p.1 c (criteriaAt last) p.2).bind fun r => .ok (r.1, r.2.2)

omit [LoopCriteriaI γ UInt8] in
theorem chainStep_eq (last : Bool) (c : UInt8) (k : κ) :
    chainStep links last c (some (chain links t), k) =
      (handsOn links c).bind fun o =>
        match o with
        | none => .ok (some (chain links t), k)
        | some b => (lastStep last b (t, k)).bind fun r => .ok (some (chain links r.1), r.2) := by
  rw [chainStep, performEl_some, perform_chain]
  simp only [Outcome.bind_assoc]
  refine congrArg _ (funext fun o => ?_)
  cases o with
  | none => rfl
  | some b => simp only [lastStep, Outcome.bind_assoc, Outcome.bind_ok]

theorem perform_last (c : UInt8) (criteria : γ) (k : κ) :
    StreamTask.perform t c criteria k =
      (lastStep (LoopCriteriaI.state criteria).isAtLast c (t, k)).bind fun r =>
        .ok (r.1, criteria, r.2) := by
  cases t with
  | trim t => simp only [lastStep, StreamTask.perform, Outcome.bind_assoc, Outcome.bind_ok]
  | extract t =>
    simp only [lastStep, StreamTask.perform]
    rw [t.perform_criteriaAt c criteria k]
    simp only [Outcome.bind_assoc, Outcome.bind_ok]

theorem folds_chain :
    Folds (fun p : Option (Linked links) × κ => ∃ t, p.1 = some (chain links t))
      (chainStep links) where
  perform c p criteria hp := by
    obtain ⟨task, k⟩ := p
    obtain ⟨t, ht⟩ := hp
    obtain rfl : task = some (chain links t) := ht
    rw [chainStep_eq, performEl_some, perform_chain, Outcome.bind_assoc, Outcome.bind_assoc]
    refine congrArg _ (funext fun o => ?_)
    cases o with
    | none => rfl
    | some b => simp only [perform_last t b criteria k, Outcome.bind_assoc, Outcome.bind_ok]
  keeps last c p q hp hq := by
    obtain ⟨task, k⟩ := p
    obtain ⟨t, ht⟩ := hp
    obtain rfl : task = some (chain links t) := ht
    rw [chainStep_eq] at hq
    obtain ⟨o, -, ho⟩ := Outcome.bind_eq_ok.mp hq
    cases o with
    | none =>
      cases ho
      exact ⟨t, rfl⟩
    | some b =>
      obtain ⟨r, -, hr⟩ := Outcome.bind_eq_ok.mp ho
      cases hr
      exact ⟨r.1, rfl⟩

end

/-- The byte that the last task gets for one that the head of the chain gets. -/
def handed (links : List Link) (c : UInt8) : Option UInt8 :=
  match handsOn links c with
  | .ok o => o
  | _ => none

def handedMarks (links : List Link) (ms : List (UInt8 × Bool)) : List (UInt8 × Bool) :=
  ms.filterMap fun m => (handed links m.1).map fun b => (b, m.2)

theorem handedMarks_fst (links : List Link) (ms : List (UInt8 × Bool)) :
    (handedMarks links ms).map Prod.fst = (ms.map Prod.fst).filterMap (handed links) := by
  induction ms with
  | nil => rfl
  | cons m ms ih =>
    cases hm : handed links m.1 with
    | none => simp [handedMarks, hm] at ih ⊢; exact ih
    | some b => simp [handedMarks, hm] at ih ⊢; exact ih

theorem feedMarks_chain [Collector κ UInt8 ρ] {links : List Link} {ms : List (UInt8 × Bool)}
    {t : LastTask} {k : κ} {q : Option (Linked links) × κ} :
    feedMarks (chainStep links) ms (some (chain links t), k) = .ok q ↔
      (∀ m ∈ ms, ∃ o, handsOn links m.1 = .ok o) ∧
        ∃ u k', feedMarks lastStep (handedMarks links ms) (t, k) = .ok (u, k') ∧
          q = (some (chain links u), k') := by
  induction ms generalizing t k with
  | nil => simp [feedMarks, handedMarks, eq_comm]
  | cons m ms ih =>
    obtain ⟨c, last⟩ := m
    rw [feedMarks_cons, chainStep_eq, Outcome.bind_assoc]
    cases hc : handsOn links c with
    | ok o =>
      have hfirst : (∀ m ∈ (c, last) :: ms, ∃ o, handsOn links m.1 = .ok o) ↔
          ∀ m ∈ ms, ∃ o, handsOn links m.1 = .ok o := by
        simp [hc]
      rw [hfirst, Outcome.bind_ok]
      cases o with
      | none =>
        have hskip : handedMarks links ((c, last) :: ms) = handedMarks links ms := by
          simp [handedMarks, handed, hc]
        rw [hskip]
        exact ih
      | some b =>
        have htake : handedMarks links ((c, last) :: ms) = (b, last) :: handedMarks links ms := by
          simp [handedMarks, handed, hc]
        rw [htake, feedMarks_cons]
        dsimp only
        cases lastStep last b (t, k) with
        | ok r => exact ih
        | thrown w => simp
        | undef => simp
        | timeout => simp
    | thrown w => simp [hc]
    | undef => simp [hc]
    | timeout => simp [hc]

/-! A used task next to a fresh one. -/

/-- The task newly constructed and then initialised. -/
def LastTask.fresh : LastTask → LastTask
  | .trim _ => .trim ReaderTaskTrim.mk'.init
  | .extract t => .extract (ReaderTaskExtract.mk' t.leftMostChar t.rightMostChar).init

section
variable [LoopCriteriaI γ UInt8] [Collector κ UInt8 ρ]

/-- What the task holds back it never gives out, and its quotes stay what they are. -/
theorem ReaderTaskExtract.perform_rTrim {t t' : ReaderTaskExtract} {c : UInt8}
    {criteria criteria' : γ} {k k' : κ} (h : t.perform c criteria k = .ok (t', criteria', k')) :
    t'.leftMostChar = t.leftMostChar ∧ t'.rightMostChar = t.rightMostChar ∧
      ∀ rTrim, ∃ rTrim', ({ t with rTrim := rTrim } : ReaderTaskExtract).perform c criteria k =
        .ok ({ t' with rTrim := rTrim' }, criteria', k') := by
  have hacc : ∀ {u : ReaderTaskExtract},
      (Collector.accumulate k c).bind (fun k => .ok (u, criteria, k)) = .ok (t', criteria', k') →
        t' = u ∧ criteria' = criteria ∧ Collector.accumulate k c = .ok k' := by
    intro u hu
    obtain ⟨k₁, hk₁, heq⟩ := Outcome.bind_eq_ok.mp hu
    cases heq
    exact ⟨rfl, rfl, hk₁⟩
  obtain ⟨held, lTrimming, rTrimming, junk, readUntil, left, right⟩ := t
  cases lTrimming with
  | true =>
    simp only [perform, Bool.true_eq_false, if_false] at h ⊢
    cases hc : isWhitespace c with
    | true =>
      simp only [hc, Bool.true_eq_false, if_false] at h ⊢
      cases h
      exact ⟨rfl, rfl, fun rTrim => ⟨rTrim, rfl⟩⟩
    | false =>
      simp only [hc, if_true] at h ⊢
      by_cases hq : c = left
      · rw [if_pos hq] at h
        cases h
        exact ⟨rfl, rfl, fun rTrim => ⟨rTrim, if_pos hq⟩⟩
      · rw [if_neg hq] at h
        by_cases hlast : (LoopCriteriaI.state criteria).isAtLast = true
        · rw [if_pos hlast] at h
          obtain ⟨rfl, rfl, hk⟩ := hacc h
          refine ⟨rfl, rfl, fun rTrim => ⟨rTrim, ?_⟩⟩
          rw [if_neg hq, if_pos hlast, hk, Outcome.bind_ok]
        · rw [if_neg hlast] at h
          cases h
  | false =>
    simp only [perform, if_true] at h ⊢
    by_cases hq : right = c
    · rw [if_pos hq] at h
      cases h
      exact ⟨rfl, rfl, fun rTrim => ⟨rTrim ++ [c], if_pos hq⟩⟩
    · simp only [if_neg hq] at h ⊢
      cases rTrimming with
      | true =>
        simp only [if_true] at h ⊢
        by_cases hlast : (LoopCriteriaI.state criteria).isAtLast = true
        · rw [if_pos hlast] at h
          cases h
          exact ⟨rfl, rfl, fun rTrim => ⟨rTrim ++ [c], if_pos hlast⟩⟩
        · simp only [if_neg hlast] at h ⊢
          by_cases hc : isWhitespace c = false
          · rw [if_pos hc] at h
            cases h
            exact ⟨rfl, rfl, fun rTrim => ⟨rTrim ++ [c], if_pos hc⟩⟩
          · rw [if_neg hc] at h
            cases h
            exact ⟨rfl, rfl, fun rTrim => ⟨rTrim ++ [c], if_neg hc⟩⟩
      | false =>
        simp only [Bool.false_eq_true, if_false] at h ⊢
        obtain ⟨rfl, rfl, hk⟩ := hacc h
        refine ⟨rfl, rfl, fun rTrim => ⟨rTrim, ?_⟩⟩
        rw [hk, Outcome.bind_ok]

/-- `flush` ends with `initialize`. -/
theorem ReaderTaskExtract.flush_rTrim {t t' : ReaderTaskExtract} {k k' : κ}
    (h : t.flush k = .ok (t', k')) :
    t' = t.init ∧ ∀ rTrim, ({ t with rTrim := rTrim } : ReaderTaskExtract).flush k =
      .ok ({ t' with rTrim := rTrim }, k') := by
  simp only [flush] at h ⊢
  by_cases hjunk : t.rTrimNonWhitespace ≠ 0
  · rw [if_pos hjunk] at h
    cases h
  · simp only [if_neg hjunk] at h ⊢
    by_cases hopen : t.lTrimming = false ∧ t.rTrimming = false
    · rw [if_pos hopen] at h
      cases h
    · simp only [if_neg hopen] at h ⊢
      by_cases huntil : t.rTrimReadUntil ≠ 0
      · simp only [if_pos huntil] at h ⊢
        obtain ⟨k₁, hk₁, heq⟩ := Outcome.bind_eq_ok.mp h
        cases heq
        exact ⟨rfl, fun rTrim => by rw [hk₁]; rfl⟩
      · simp only [if_neg huntil] at h ⊢
        cases h
        exact ⟨rfl, fun rTrim => rfl⟩

omit [LoopCriteriaI γ UInt8] in
theorem feedMarks_extract {ms : List (UInt8 × Bool)} {t : ReaderTaskExtract} {u : LastTask}
    {k k' : κ} (h : feedMarks lastStep ms (.extract t, k) = .ok (u, k')) :
    ∃ t', u = .extract t' ∧ t'.leftMostChar = t.leftMostChar ∧
      t'.rightMostChar = t.rightMostChar ∧ ∀ rTrim, ∃ rTrim',
        feedMarks lastStep ms (.extract { t with rTrim := rTrim }, k) =
          .ok (.extract { t' with rTrim := rTrim' }, k') := by
  induction ms generalizing t k with
  | nil =>
    cases h
    exact ⟨t, rfl, rfl, rfl, fun rTrim => ⟨rTrim, rfl⟩⟩
  | cons m ms ih =>
    obtain ⟨c, last⟩ := m
    obtain ⟨⟨u₁, k₁⟩, hstep, hrest⟩ := Outcome.bind_eq_ok.mp h
    obtain ⟨r, hperform, hr⟩ := Outcome.bind_eq_ok.mp hstep
    obtain ⟨⟨t₁, criteria₁, k₂⟩, hp, hr'⟩ := Outcome.bind_eq_ok.mp hperform
    cases hr'
    cases hr
    obtain ⟨hleft₁, hright₁, hsame₁⟩ := ReaderTaskExtract.perform_rTrim hp
    obtain ⟨t', hu, hleft, hright, hsame⟩ := ih hrest
    refine ⟨t', hu, hleft.trans hleft₁, hright.trans hright₁, fun rTrim => ?_⟩
    obtain ⟨rTrim₁, hp₁⟩ := hsame₁ rTrim
    obtain ⟨rTrim', hrest'⟩ := hsame rTrim₁
    refine ⟨rTrim', ?_⟩
    have hstep' : lastStep last c (.extract { t with rTrim := rTrim }, k) =
        .ok (.extract { t₁ with rTrim := rTrim₁ }, k₂) := by
      simp only [lastStep, StreamTask.perform, hp₁, Outcome.bind_ok]
    rw [feedMarks_cons, hstep']
    exact hrest'

/-! The same for the other task, which gives out what it holds back. -/

def trimStep (c : UInt8) (p : ReaderTaskTrim × κ) : Outcome (ReaderTaskTrim × κ) :=
  p.1.perform c p.2

omit [LoopCriteriaI γ UInt8] in
theorem feedMarks_trim {ms : List (UInt8 × Bool)} {t : ReaderTaskTrim} {u : LastTask} {k k' : κ} :
    feedMarks lastStep ms (.trim t, k) = .ok (u, k') ↔
      ∃ t', u = .trim t' ∧ feed trimStep (ms.map Prod.fst) (t, k) = .ok (t', k') := by
  induction ms generalizing t k with
  | nil =>
    constructor
    · intro h
      cases h
      exact ⟨t, rfl, rfl⟩
    · rintro ⟨t', rfl, h⟩
      cases h
      rfl
  | cons m ms ih =>
    obtain ⟨c, last⟩ := m
    have hstep : lastStep last c (.trim t, k) =
        (t.perform c k).bind fun r => .ok (.trim r.1, r.2) := by
      simp only [lastStep, StreamTask.perform, Outcome.bind_assoc, Outcome.bind_ok]
    rw [feedMarks_cons, hstep, List.map_cons, feed_cons, trimStep]
    cases t.perform c k with
    | ok r => exact ih
    | thrown w => simp
    | undef => simp
    | timeout => simp

/-- With nothing held back it makes no difference whether there is a gap. -/
theorem trimStep_empty (c : UInt8) (gap gap' : Bool) (k : κ) :
    trimStep c (⟨[], false, gap⟩, k) = trimStep c (⟨[], false, gap'⟩, k) := by
  cases hc : isWhitespace c with
  | true => simp [trimStep, ReaderTaskTrim.perform, hc]
  | false =>
    cases gap <;> cases gap' <;>
      simp [trimStep, ReaderTaskTrim.perform, ReaderTaskTrim.rTrimFlush, hc]

theorem trimStep_space {c : UInt8} (hc : isWhitespace c = true) (held : List UInt8) (gap : Bool)
    (k : κ) : trimStep c (⟨held, false, gap⟩, k) = .ok (⟨held ++ [c], false, true⟩, k) := by
  simp [trimStep, ReaderTaskTrim.perform, hc]

theorem trimStep_left {c : UInt8} (hc : isWhitespace c = true) (held : List UInt8) (gap : Bool)
    (k : κ) : trimStep c (⟨held, true, gap⟩, k) = .ok (⟨held, true, gap⟩, k) := by
  simp [trimStep, ReaderTaskTrim.perform, hc]

theorem trimStep_first {c : UInt8} (hc : isWhitespace c = false) (held : List UInt8) (gap : Bool)
    (k : κ) : trimStep c (⟨held, true, gap⟩, k) =
      (Collector.accumulate k c).bind fun k => .ok (⟨held, false, gap⟩, k) := by
  simp [trimStep, ReaderTaskTrim.perform, hc]

theorem trimStep_word {c : UInt8} (hc : isWhitespace c = false) (held : List UInt8) (k : κ) :
    trimStep c (⟨held, false, false⟩, k) =
      (Collector.accumulate k c).bind fun k => .ok (⟨held, false, false⟩, k) := by
  simp [trimStep, ReaderTaskTrim.perform, hc]

end

section
variable [Collector κ UInt8 ρ] {bs held held' : List UInt8} {lTrimming gap gap' : Bool}
  {t t' : ReaderTaskTrim} {k k' : κ}

theorem feed_trim_empty (h : feed trimStep bs (⟨[], lTrimming, gap⟩, k) = .ok (t', k')) :
    ∃ u', feed trimStep bs (⟨[], lTrimming, gap'⟩, k) = .ok (u', k') := by
  induction bs generalizing lTrimming k with
  | nil =>
    cases h
    exact ⟨_, rfl⟩
  | cons c bs ih =>
    rw [feed_cons] at h ⊢
    cases lTrimming with
    | false =>
      rw [trimStep_empty c gap gap' k] at h
      exact ⟨t', h⟩
    | true =>
      cases hc : isWhitespace c with
      | true =>
        rw [trimStep_left hc] at h ⊢
        exact ih h
      | false =>
        rw [trimStep_first hc] at h ⊢
        obtain ⟨p, hp, hrest⟩ := Outcome.bind_eq_ok.mp h
        obtain ⟨k₁, hk₁, heq⟩ := Outcome.bind_eq_ok.mp hp
        cases heq
        rw [hk₁]
        exact ih hrest

/-- What is held back stays where it is as long as no word follows a gap. -/
theorem feed_trim_word (hstarts : starts gap bs = 0)
    (h : feed trimStep bs (⟨held, false, gap⟩, k) = .ok (t', k')) :
    ∃ u', feed trimStep bs (⟨held', false, gap⟩, k) = .ok (u', k') := by
  induction bs generalizing held held' gap k with
  | nil =>
    cases h
    exact ⟨_, rfl⟩
  | cons c bs ih =>
    rw [feed_cons] at h ⊢
    unfold starts at hstarts
    cases hc : isWhitespace c with
    | true =>
      rw [hc, if_pos rfl] at hstarts
      rw [trimStep_space hc] at h ⊢
      exact ih hstarts h
    | false =>
      rw [hc, if_neg Bool.false_ne_true] at hstarts
      cases gap with
      | true => simp at hstarts
      | false =>
        rw [trimStep_word hc] at h ⊢
        obtain ⟨p, hp, hrest⟩ := Outcome.bind_eq_ok.mp h
        obtain ⟨k₁, hk₁, heq⟩ := Outcome.bind_eq_ok.mp hp
        cases heq
        rw [hk₁]
        exact ih (by simpa using hstarts) hrest

theorem feed_trim_first (hstarts : starts true bs ≤ 1)
    (h : feed trimStep bs (⟨held, true, false⟩, k) = .ok (t', k')) :
    ∃ u', feed trimStep bs (⟨held', true, false⟩, k) = .ok (u', k') := by
  induction bs generalizing k with
  | nil =>
    cases h
    exact ⟨_, rfl⟩
  | cons c bs ih =>
    rw [feed_cons] at h ⊢
    unfold starts at hstarts
    cases hc : isWhitespace c with
    | true =>
      rw [hc, if_pos rfl] at hstarts
      rw [trimStep_left hc] at h ⊢
      exact ih hstarts h
    | false =>
      rw [hc, if_neg Bool.false_ne_true, if_pos rfl] at hstarts
      rw [trimStep_first hc] at h ⊢
      obtain ⟨p, hp, hrest⟩ := Outcome.bind_eq_ok.mp h
      obtain ⟨k₁, hk₁, heq⟩ := Outcome.bind_eq_ok.mp hp
      cases heq
      rw [hk₁]
      exact feed_trim_word (by omega) hrest

theorem feed_trim_space (hbs : ∀ b ∈ bs, isWhitespace b = true) (t : ReaderTaskTrim) (k : κ) :
    ∃ t', feed trimStep bs (t, k) = .ok (t', k) := by
  induction bs generalizing t with
  | nil => exact ⟨t, rfl⟩
  | cons c bs ih =>
    obtain ⟨hc, hbs⟩ := List.forall_mem_cons.mp hbs
    obtain ⟨held, lTrimming, gap⟩ := t
    rw [feed_cons]
    cases lTrimming with
    | true =>
      rw [trimStep_left hc]
      exact ih hbs _
    | false =>
      rw [trimStep_space hc]
      exact ih hbs _

/-- The task gives out none of what it holds back from earlier reads, and takes the first of the
bytes as a fresh one does. -/
def ReaderTaskTrim.Fits (t : ReaderTaskTrim) (bs : List UInt8) : Prop :=
  (∀ b ∈ bs, isWhitespace b = true) ∨
    (t.lTrimming = true ∨ ∀ b ∈ bs.head?, isWhitespace b = false) ∧
      (t.rTrim = [] ∨ t.rTrimming = false ∧ (words bs).length ≤ 1)

theorem ReaderTaskTrim.Fits.feed (hfits : t.Fits bs)
    (h : feed trimStep bs (t, k) = .ok (t', k')) :
    ∃ u', Library.feed trimStep bs (ReaderTaskTrim.mk'.init, k) = .ok (u', k') := by
  obtain hspace | ⟨hfirst, hheld⟩ := hfits
  · obtain ⟨t₁, ht₁⟩ := feed_trim_space hspace t k
    obtain ⟨-, rfl⟩ := Prod.mk.inj (Outcome.ok.inj (h.symm.trans ht₁))
    exact feed_trim_space hspace _ _
  · rw [(words_length bs).1] at hheld
    obtain ⟨held, lTrimming, gap⟩ := t
    cases lTrimming with
    | true =>
      obtain hnil | ⟨hgap, hwords⟩ := hheld
      · obtain rfl : held = [] := hnil
        exact feed_trim_empty h
      · obtain rfl : gap = false := hgap
        exact feed_trim_first hwords h
    | false =>
      have hfirst := hfirst.resolve_left Bool.false_ne_true
      cases bs with
      | nil =>
        cases h
        exact ⟨_, rfl⟩
      | cons c bs =>
        -- a fresh task takes the first byte as one does that is past it
        have hc : isWhitespace c = false := hfirst c rfl
        have hfresh : Library.feed trimStep (c :: bs) (ReaderTaskTrim.mk'.init, k) =
            Library.feed trimStep (c :: bs) (⟨[], false, false⟩, k) := by
          have hinit : ReaderTaskTrim.mk'.init = ⟨[], true, false⟩ := rfl
          rw [hinit, feed_cons, feed_cons, trimStep_word hc, trimStep_first hc]
        rw [hfresh]
        obtain hnil | ⟨hgap, hwords⟩ := hheld
        · obtain rfl : held = [] := hnil
          exact feed_trim_empty h
        · obtain rfl : gap = false := hgap
          refine feed_trim_word ?_ h
          unfold starts at hwords ⊢
          rw [hc, if_neg Bool.false_ne_true] at hwords ⊢
          simp only [if_true] at hwords
          simp only [Bool.false_eq_true, if_false]
          omega

end

/-! Where the collector puts the bytes one behind the other, the condition is exact. -/

section
variable {bs held held' sp l : List UInt8} {c : UInt8} {gap : Bool}

theorem given_length (old held l : List UInt8) (gap : Bool) :
    (given (old ++ held) gap l).length =
      (given held gap l).length + old.length * starts gap l := by
  induction l generalizing held gap with
  | nil => simp [given, starts]
  | cons c l ih =>
    unfold given starts
    cases hc : isWhitespace c with
    | true =>
      simp only [if_true, List.append_assoc]
      exact ih (held ++ [c]) true
    | false =>
      have hrest := ih held false
      cases gap with
      | true =>
        simp only [Bool.false_eq_true, if_false, if_true, List.length_append, List.length_cons,
          hrest, Nat.mul_add]
        omega
      | false =>
        simp only [Bool.false_eq_true, if_false, List.length_cons, hrest, zero_add]
        omega

theorem given_of_starts (h : starts gap l = 0) : given held gap l = given held' gap l := by
  induction l generalizing held held' gap with
  | nil => rfl
  | cons c l ih =>
    unfold starts at h
    unfold given
    cases hc : isWhitespace c with
    | true =>
      rw [hc, if_pos rfl] at h
      exact ih h
    | false =>
      rw [hc, if_neg Bool.false_ne_true] at h
      cases gap with
      | true => simp at h
      | false =>
        simp only [Bool.false_eq_true, if_false]
        rw [ih (by simpa using h)]

theorem given_eq_given_nil : given held gap l = given [] gap l ↔ held = [] ∨ starts gap l = 0 := by
  constructor
  · intro h
    have hlen := given_length held [] l gap
    rw [List.append_nil, h] at hlen
    have hzero : held.length * starts gap l = 0 := by omega
    obtain hnil | hstarts := Nat.mul_eq_zero.mp hzero
    · exact Or.inl (List.length_eq_zero_iff.mp hnil)
    · exact Or.inr hstarts
  · rintro (rfl | h)
    · rfl
    · exact given_of_starts h

/-- A gap in front of a word comes out with it. -/
theorem given_gap (hsp : ∀ b ∈ sp, isWhitespace b = true) (hc : isWhitespace c = false)
    (held : List UInt8) :
    given held true (sp ++ c :: l) = held ++ sp ++ c :: given (held ++ sp) false l := by
  induction sp generalizing held with
  | nil => simp [given, hc]
  | cons b sp ih =>
    obtain ⟨hb, hsp⟩ := List.forall_mem_cons.mp hsp
    rw [List.cons_append, given, if_pos hb, ih hsp]
    simp

theorem given_space (hsp : ∀ b ∈ sp, isWhitespace b = true) : given held gap sp = [] := by
  induction sp generalizing held gap with
  | nil => rfl
  | cons b sp ih =>
    obtain ⟨hb, hsp⟩ := List.forall_mem_cons.mp hsp
    rw [given, if_pos hb, ih hsp]

theorem starts_space (hsp : ∀ b ∈ sp, isWhitespace b = true) (l : List UInt8) :
    starts true (sp ++ l) = starts true l := by
  induction sp with
  | nil => rfl
  | cons b sp ih =>
    obtain ⟨hb, hsp⟩ := List.forall_mem_cons.mp hsp
    rw [List.cons_append, starts, if_pos hb, ih hsp]

/-- All that the task makes of some bytes. -/
def ReaderTaskTrim.output (t : ReaderTaskTrim) (bs : List UInt8) : List UInt8 :=
  if t.lTrimming then
    match bs.dropWhile isWhitespace with
    | [] => []
    | c :: l => c :: given t.rTrim t.rTrimming l
  else given t.rTrim t.rTrimming bs

theorem feed_output [Collector κ UInt8 (List UInt8)] [Concatenates κ] (t : ReaderTaskTrim)
    (bs : List UInt8) (k : κ) :
    ∃ t' k', feed trimStep bs (t, k) = .ok (t', k') ∧
      Collector.collect k' = Collector.collect k ++ t.output bs := by
  have hstep : ∀ (bs : List UInt8) (t : ReaderTaskTrim) (k : κ),
      feed (trims false) bs (some t, k) =
        (feed trimStep bs (t, k)).bind fun r => .ok (some r.1, r.2) := by
    intro bs
    induction bs with
    | nil => exact fun _ _ => rfl
    | cons c bs ih =>
      intro t k
      simp only [feed_cons, trims, trimStep, Outcome.bind_assoc, Outcome.bind_ok, ih]
  obtain ⟨held, lTrimming, gap⟩ := t
  cases lTrimming with
  | false =>
    obtain ⟨t', k', hfeed, hcollect⟩ := feed_given bs held gap k
    rw [hstep] at hfeed
    obtain ⟨r, hr, heq⟩ := Outcome.bind_eq_ok.mp hfeed
    cases heq
    exact ⟨r.1, r.2, hr, hcollect⟩
  | true =>
    induction bs with
    | nil => exact ⟨_, k, rfl, by simp [ReaderTaskTrim.output]⟩
    | cons c l ih =>
      rw [feed_cons]
      cases hc : isWhitespace c with
      | true =>
        have hsame : ReaderTaskTrim.output ⟨held, true, gap⟩ (c :: l) =
            ReaderTaskTrim.output ⟨held, true, gap⟩ l := by
          simp [ReaderTaskTrim.output, hc]
        rw [trimStep_left hc, hsame]
        exact ih
      | false =>
        obtain ⟨k₁, hk₁, hcollect⟩ := Concatenates.accumulate k c
        obtain ⟨t', k', hfeed, hgiven⟩ := feed_given l held gap k₁
        rw [hstep] at hfeed
        obtain ⟨r, hr, heq⟩ := Outcome.bind_eq_ok.mp hfeed
        cases heq
        rw [trimStep_first hc, hk₁]
        refine ⟨r.1, r.2, hr, ?_⟩
        simp [hgiven, hcollect, ReaderTaskTrim.output, hc]

/-- What the task makes of some bytes is what a fresh one makes of them just if they fit it. -/
theorem output_eq_iff {t : ReaderTaskTrim} (hflags : t.lTrimming = true → t.rTrimming = false)
    (bs : List UInt8) : t.output bs = trimOutput bs ↔ t.Fits bs := by
  obtain ⟨held, lTrimming, gap⟩ := t
  by_cases hspace : ∀ b ∈ bs, isWhitespace b = true
  · have hdrop : bs.dropWhile isWhitespace = [] := List.dropWhile_eq_nil_iff.mpr hspace
    refine iff_of_true ?_ (Or.inl hspace)
    cases lTrimming with
    | true => simp [ReaderTaskTrim.output, trimOutput, hdrop]
    | false => simp [ReaderTaskTrim.output, trimOutput, hdrop, given_space hspace]
  · -- space, and the first byte of the first word
    obtain ⟨sp, c, l, rfl, hsp, hc⟩ : ∃ sp c l, bs = sp ++ c :: l ∧
        (∀ b ∈ sp, isWhitespace b = true) ∧ isWhitespace c = false := by
      obtain ⟨c, l, hcl⟩ := List.exists_cons_of_ne_nil
        (fun hnil => hspace (List.dropWhile_eq_nil_iff.mp hnil))
      have hc := List.head?_dropWhile_not isWhitespace bs
      rw [hcl] at hc
      refine ⟨bs.takeWhile isWhitespace, c, l, ?_, fun b hb => List.mem_takeWhile_imp hb, hc⟩
      rw [← hcl, List.takeWhile_append_dropWhile]
    have hdrop : (sp ++ c :: l).dropWhile isWhitespace = c :: l := by
      rw [List.dropWhile_append_of_pos hsp, List.dropWhile_cons_of_neg (by simp [hc])]
    have hwords : (words (sp ++ c :: l)).length = 1 + starts false l := by
      rw [(words_length _).1, starts_space hsp, starts, if_neg (by simp [hc]), if_pos rfl]
    have hfits : ReaderTaskTrim.Fits ⟨held, lTrimming, gap⟩ (sp ++ c :: l) ↔
        (lTrimming = true ∨ sp = []) ∧ (held = [] ∨ gap = false ∧ starts false l = 0) := by
      have hhead : (∀ b ∈ (sp ++ c :: l).head?, isWhitespace b = false) ↔ sp = [] := by
        cases sp with
        | nil => simp [hc]
        | cons b sp => simp [hsp b (by simp)]
      have hone : 1 + starts false l ≤ 1 ↔ starts false l = 0 := by omega
      unfold ReaderTaskTrim.Fits
      rw [hwords, hhead, hone]
      exact or_iff_right hspace
    have hfresh : trimOutput (sp ++ c :: l) = c :: given [] false l := by
      simp only [trimOutput, hdrop]
    rw [hfits, hfresh]
    cases lTrimming with
    | true =>
      obtain rfl : gap = false := hflags rfl
      simp [ReaderTaskTrim.output, hdrop, given_eq_given_nil]
    | false =>
      have hout : ReaderTaskTrim.output ⟨held, false, gap⟩ (sp ++ c :: l) =
          given held gap (sp ++ c :: l) := rfl
      -- what comes out in front of the word makes it longer
      have hlonger : ∀ old : List UInt8, old ++ c :: given old false l = c :: given [] false l →
          old = [] := by
        intro old heq
        have hlen := given_length old [] l false
        have heq' := congrArg List.length heq
        simp only [List.append_nil, List.length_append, List.length_cons] at hlen heq'
        exact List.length_eq_zero_iff.mp (by omega)
      rw [hout]
      cases sp with
      | nil =>
        cases gap with
        | false => simp [given, hc, given_eq_given_nil]
        | true =>
          rw [given_gap hsp hc, List.append_nil]
          constructor
          · intro heq
            exact ⟨Or.inr rfl, Or.inl (hlonger held heq)⟩
          · rintro ⟨-, rfl | ⟨hgap, -⟩⟩
            · rfl
            · cases hgap
      | cons b sp =>
        obtain ⟨hb, hsp'⟩ := List.forall_mem_cons.mp hsp
        rw [List.cons_append, given, if_pos hb, given_gap hsp' hc]
        refine iff_of_false (fun heq => ?_) (by simp)
        have hnil := hlonger (held ++ [b] ++ sp) heq
        simp at hnil

end

/-! A read through a chain. -/

theorem initialized_fresh (links : List Link) (t : LastTask) :
    initialized links t.fresh = t.fresh := by
  cases links <;> cases t <;> rfl

theorem fresh_initialized (links : List Link) (t : LastTask) :
    (initialized links t).fresh = t.fresh := by
  cases links <;> cases t <;> rfl

/-- What the last task gets in a read, and what comes of it; so it is with any other last task. -/
theorem streamCollect_chain [LoopCriteriaI γ UInt8] [Collector κ UInt8 ρ] {links : List Link}
    {criteria : γ} {t : LastTask} {task : Option (Linked links)} {k : κ} {data : ρ}
    {s s' : EStream UInt8} {l : List UInt8} (h : Contains s l)
    (hread : streamCollect criteria (some (chain links t)) k s = .ok ((data, task), s')) :
    ∃ ms l' u k' r, l = ms.map Prod.fst ++ l' ∧ Contains s' l' ∧
      feedMarks lastStep (handedMarks links ms) (initialized links t, Collector.init k) =
        .ok (u, k') ∧
      StreamTask.flush u k' = .ok r ∧ task = some (chain links r.1) ∧
      data = Collector.collect r.2 ∧
      ∀ t₁ u₁ k₁ r₁, feedMarks lastStep (handedMarks links ms)
          (initialized links t₁, Collector.init k) = .ok (u₁, k₁) →
        StreamTask.flush u₁ k₁ = .ok r₁ →
        streamCollect criteria (some (chain links t₁)) k s =
          .ok ((Collector.collect r₁.2, some (chain links r₁.1)), s') := by
  have hhead : ∀ t₁ : LastTask, ∃ u, some (StreamTask.init (chain links t₁)) =
      some (chain links u) :=
    fun t₁ => ⟨initialized links t₁, congrArg some (init_chain links t₁)⟩
  obtain ⟨ms, l', q, r, hl, h', hfeed, hflush, rfl, rfl, hsame⟩ :=
    (folds_chain links).streamCollect_marks h (hhead t) hread
  rw [init_chain] at hfeed
  obtain ⟨hhands, u, k', hlast, rfl⟩ := feedMarks_chain.mp hfeed
  rw [flushTask_some, flush_chain, Outcome.bind_assoc] at hflush
  obtain ⟨r', hr', hr⟩ := Outcome.bind_eq_ok.mp hflush
  cases hr
  refine ⟨ms, l', u, k', r', hl, h', hlast, hr', rfl, rfl, ?_⟩
  intro t₁ u₁ k₁ r₁ hlast₁ hr₁
  have hfeed₁ : feedMarks (chainStep links) ms
      (some (StreamTask.init (chain links t₁)), Collector.init k) =
        .ok (some (chain links u₁), k₁) := by
    rw [init_chain]
    exact feedMarks_chain.mpr ⟨hhands, u₁, k₁, hlast₁, rfl⟩
  have hflush₁ : flushTask (some (chain links u₁)) k₁ = .ok (some (chain links r₁.1), r₁.2) := by
    rw [flushTask_some, flush_chain, hr₁]
    rfl
  exact hsame _ _ _ (hhead t₁) hfeed₁ hflush₁

/-- A read whose bytes do not fit the task at the end of the chain is not as with a fresh one. -/
theorem trim_as_fresh_iff [LoopCriteriaI γ UInt8] [Collector κ UInt8 (List UInt8)] [Concatenates κ]
    {links : List Link} {criteria : γ} {before : LastTask} {t : ReaderTaskTrim}
    {task : Option (Linked links)} {k : κ} {s s' : EStream UInt8} {taken left data : List UInt8}
    (h : Contains s (taken ++ left)) (h' : Contains s' left)
    (hbefore : initialized links before = .trim t)
    (hflags : t.lTrimming = true → t.rTrimming = false)
    (hread : streamCollect criteria (some (chain links before)) k s = .ok ((data, task), s')) :
    (∃ task', streamCollect criteria (some (chain links (.trim ReaderTaskTrim.mk'.init))) k s =
      .ok ((data, task'), s')) ↔ t.Fits (taken.filterMap (handed links)) := by
  obtain ⟨ms, l', u, k', r, hl, hrest, hfeed, hflush, -, hdata, hsame⟩ :=
    streamCollect_chain h hread
  obtain rfl : l' = left := hrest.remaining.symm.trans h'.remaining
  have htaken : taken.filterMap (handed links) = (handedMarks links ms).map Prod.fst := by
    rw [handedMarks_fst, List.append_cancel_right hl]
  rw [hbefore] at hfeed
  obtain ⟨t', rfl, htrim⟩ := feedMarks_trim.mp hfeed
  cases hflush
  obtain ⟨t₁, k₁, hfeed₁, hcollect₁⟩ := feed_output t ((handedMarks links ms).map Prod.fst)
    (Collector.init k)
  obtain ⟨t₂, k₂, hfeed₂, hcollect₂⟩ := feed_output ReaderTaskTrim.mk'.init
    ((handedMarks links ms).map Prod.fst) (Collector.init k)
  obtain ⟨-, rfl⟩ := Prod.mk.inj (Outcome.ok.inj (hfeed₁.symm.trans htrim))
  have hfresh : initialized links (.trim ReaderTaskTrim.mk'.init) = .trim ReaderTaskTrim.mk'.init :=
    initialized_fresh links (.trim ReaderTaskTrim.mk')
  have hread₂ := hsame (.trim ReaderTaskTrim.mk'.init) (.trim t₂) k₂ (.trim t₂, k₂)
    (by rw [hfresh]; exact feedMarks_trim.mpr ⟨t₂, rfl, hfeed₂⟩) rfl
  rw [Concatenates.init, List.nil_append] at hcollect₁ hcollect₂
  rw [htaken, ← output_eq_iff hflags, hdata, hread₂]
  have hout : ReaderTaskTrim.mk'.init.output ((handedMarks links ms).map Prod.fst) =
      trimOutput ((handedMarks links ms).map Prod.fst) := rfl
  rw [← hout, ← hcollect₁, ← hcollect₂]
  constructor
  · rintro ⟨task', heq⟩
    exact (Prod.mk.inj (Prod.mk.inj (Outcome.ok.inj heq)).1).1.symm
  · intro heq
    exact ⟨_, by rw [← heq]⟩

/-! Runs on the same tasks. -/

/-- A read that returned: what it took and what it left of the stream, and its last task before and
after it. -/
structure Run (links : List Link) where
  {γ κ ρ : Type}
  [criteriaI : LoopCriteriaI γ UInt8]
  [collectorI : Collector κ UInt8 ρ]
  criteria : γ
  collector : κ
  stream : EStream UInt8
  taken : List UInt8
  left : List UInt8
  before : LastTask
  data : ρ
  after : LastTask
  rest : EStream UInt8
  contains : Contains stream (taken ++ left)
  contains_rest : Contains rest left
  returns : streamCollect criteria (some (chain links before)) collector stream =
    .ok ((data, some (chain links after)), rest)

attribute [instance] Run.criteriaI Run.collectorI

/-- Every run finds the tasks as the one before has left them. -/
inductive History (links : List Link) : LastTask → List (Run links) → Prop where
  | nil (t : LastTask) : History links t []
  | cons (run : Run links) {runs : List (Run links)} (h : History links run.after runs) :
      History links run.before (run :: runs)

/-- Behind a link the task has been initialised already. -/
def Initialised (links : List Link) : LastTask → Prop
  | .trim _ => True
  | .extract t => links = [] ∨ t.init = t

theorem Initialised.init_eq {links : List Link} {before : LastTask} {t : ReaderTaskExtract}
    (h : Initialised links before) (ht : initialized links before = .extract t) : t.init = t := by
  cases links with
  | nil =>
    cases before with
    | trim _ => cases ht
    | extract e =>
      cases ht
      rfl
  | cons link links =>
    obtain rfl : before = .extract t := ht
    exact h.resolve_left (List.cons_ne_nil link links)

namespace Run
variable {links : List Link}

/-- Tasks newly constructed and initialised give the same for the same input. -/
def AsFresh (start : LastTask) (run : Run links) : Prop :=
  ∃ task, streamCollect run.criteria (some (chain links start.fresh)) run.collector run.stream =
    .ok ((run.data, task), run.rest)

/-- What reaches a task that trims meets what it still holds back, so it must fit this. -/
def Fits (run : Run links) : Prop :=
  match initialized links run.before with
  | .trim t => t.Fits (run.taken.filterMap (handed links))
  | .extract _ => True

/-- A read over a stream with contents takes some of them. -/
theorem of_returns [LoopCriteriaI γ UInt8] [Collector κ UInt8 ρ] {criteria : γ} {k : κ} {data : ρ}
    {before : LastTask} {task : Option (Linked links)} {s s' : EStream UInt8} {l : List UInt8}
    (h : Contains s l)
    (hread : streamCollect criteria (some (chain links before)) k s = .ok ((data, task), s')) :
    ∃ run : Run links, run.stream = s ∧ run.before = before ∧ run.rest = s' ∧
      run.taken ++ run.left = l ∧ task = some (chain links run.after) := by
  obtain ⟨ms, l', u, k', r, rfl, h', -, -, rfl, rfl, -⟩ := streamCollect_chain h hread
  exact ⟨⟨criteria, k, s, _, l', before, _, r.1, s', h, h', hread⟩, rfl, rfl, rfl, rfl, rfl⟩

/-- The condition is enough for one run, and what a run leaves is initialised. -/
theorem asFresh {start : LastTask} (run : Run links) (hfits : run.Fits)
    (hinit : Initialised links run.before) (hstart : run.before.fresh = start.fresh) :
    run.AsFresh start ∧ Initialised links run.after ∧ run.after.fresh = start.fresh := by
  obtain ⟨ms, l', u, k', r, hl, h', hfeed, hflush, htask, hdata, hsame⟩ :=
    streamCollect_chain run.contains run.returns
  obtain rfl : l' = run.left := h'.remaining.symm.trans run.contains_rest.remaining
  have htaken : run.taken = ms.map Prod.fst := List.append_cancel_right hl
  have hafter : run.after = r.1 := chain_inj links (Option.some.inj htask)
  have hfresh' : (initialized links run.before).fresh = start.fresh :=
    (fresh_initialized links run.before).trans hstart
  -- what a fresh task has to do for the same result
  have hfresh : ∀ u₁ r₁, feedMarks lastStep (handedMarks links ms)
      (start.fresh, Collector.init run.collector) = .ok (u₁, k') →
      StreamTask.flush u₁ k' = .ok r₁ → r₁.2 = r.2 → run.AsFresh start := by
    intro u₁ r₁ hfeed₁ hr₁ hcollector
    rw [← initialized_fresh links start] at hfeed₁
    have hread := hsame _ _ _ _ hfeed₁ hr₁
    rw [hcollector, ← hdata] at hread
    exact ⟨_, hread⟩
  rw [hafter]
  cases hbefore : initialized links run.before with
  | trim t =>
    have hfits' : t.Fits ((handedMarks links ms).map Prod.fst) := by
      rw [handedMarks_fst, ← htaken]
      simpa only [Fits, hbefore] using hfits
    rw [hbefore] at hfeed hfresh'
    obtain ⟨t', rfl, htrim⟩ := feedMarks_trim.mp hfeed
    obtain ⟨u', hu'⟩ := hfits'.feed htrim
    cases hflush
    refine ⟨?_, trivial, hfresh'⟩
    rw [← hfresh'] at hfresh
    exact hfresh _ _ (feedMarks_trim.mpr ⟨u', rfl, hu'⟩) rfl rfl
  | extract t =>
    have ht := hinit.init_eq hbefore
    rw [hbefore] at hfeed hfresh'
    obtain ⟨t', rfl, hleft, hright, hany⟩ := feedMarks_extract hfeed
    obtain ⟨⟨t'', k''⟩, hflush', heq⟩ := Outcome.bind_eq_ok.mp hflush
    cases heq
    obtain ⟨rfl, hflush_any⟩ := ReaderTaskExtract.flush_rTrim hflush'
    refine ⟨?_, Or.inr rfl, ?_⟩
    · obtain ⟨rTrim', hu'⟩ := hany []
      have hstart' : start.fresh = .extract { t with rTrim := [] } := by
        rw [← hfresh', ← ht]
        rfl
      have hend : StreamTask.flush (LastTask.extract { t' with rTrim := rTrim' }) k' =
          .ok (.extract { t'.init with rTrim := rTrim' }, k'') := by
        simp only [StreamTask.flush, hflush_any, Outcome.bind_ok]
      rw [hstart'] at hfresh
      exact hfresh _ _ hu' hend rfl
    · rw [← hfresh']
      simp only [LastTask.fresh, ReaderTaskExtract.init, hleft, hright]

end Run

/-- In a history whose runs all fit what the tasks hold back, each of them is as with new tasks. -/
theorem reuse_as_fresh {links : List Link} {start : LastTask} {runs : List (Run links)}
    (h : History links start runs) (hinit : Initialised links start)
    (hruns : ∀ run ∈ runs, run.Fits) : ∀ run ∈ runs, run.AsFresh start := by
  have hsame : ∀ {t : LastTask}, History links t runs → Initialised links t →
      t.fresh = start.fresh → ∀ run ∈ runs, run.AsFresh start := by
    clear h hinit
    intro t h hinit hfresh
    induction h with
    | nil t => simp
    | cons run h ih =>
      obtain ⟨hfirst, hrest⟩ := List.forall_mem_cons.mp hruns
      obtain ⟨hrun, hafter, hfresh'⟩ := run.asFresh hfirst hinit hfresh
      exact List.forall_mem_cons.mpr ⟨hrun, ih hrest hafter hfresh'⟩
  exact hsame h hinit rfl

/-! Runs of `ReaderTaskTrim` alone over the whole of a buffer. -/

theorem chainStep_trim [Collector κ UInt8 ρ] (last : Bool) (c : UInt8) (t : ReaderTaskTrim)
    (k : κ) : chainStep [] last c (some (chain [] (.trim t)), k) =
      (trimStep c (t, k)).bind fun r => .ok (some (chain [] (.trim r.1)), r.2) := by
  rw [chainStep_eq]
  simp only [handsOn, lastStep, StreamTask.perform, trimStep, Outcome.bind_ok, Outcome.bind_assoc]

theorem feed_chainStep_trim [Collector κ UInt8 ρ] (last : Bool) (bs : List UInt8)
    (t : ReaderTaskTrim) (k : κ) :
    feed (chainStep [] last) bs (some (chain [] (.trim t)), k) =
      (feed trimStep bs (t, k)).bind fun r => .ok (some (chain [] (.trim r.1)), r.2) := by
  induction bs generalizing t k with
  | nil => rfl
  | cons c bs ih =>
    rw [feed_cons, feed_cons, chainStep_trim]
    simp only [Outcome.bind_assoc, Outcome.bind_ok, ih]

/-- Criteria that take so many elements. -/
def taking (n : Nat) : LoopCriteria UInt8 := LoopCriteria.mk' .untilNumElements true n []

theorem trim_run (t : ReaderTaskTrim) {bs out : List UInt8} {t' : ReaderTaskTrim} (hne : bs ≠ [])
    (hfeed : feed trimStep bs (t.init, (⟨[]⟩ : ArrayCollector UInt8)) = .ok (t', ⟨out⟩)) :
    ∃ s', streamCollect (taking bs.length) (some (chain [] (.trim t)))
        (⟨[]⟩ : ArrayCollector UInt8) (EStream.ofBuffer bs) =
          .ok ((out, some (chain [] (.trim t'))), s') ∧ Holds s' [] := by
  obtain ⟨pre, u, rfl⟩ : ∃ pre u, bs = pre ++ [u] :=
    ⟨bs.dropLast, bs.getLast hne, (List.dropLast_append_getLast hne).symm⟩
  rw [feed_append] at hfeed
  obtain ⟨⟨t₁, k₁⟩, hpre, hlast⟩ := Outcome.bind_eq_ok.mp hfeed
  have hstep : trimStep u (t₁, k₁) = .ok (t', ⟨out⟩) := by
    rw [feed_cons] at hlast
    exact (Outcome.bind_ok_right _).symm.trans hlast
  have hinit : (Option.map StreamTask.init (some (chain [] (.trim t))), Collector.init
      (⟨[]⟩ : ArrayCollector UInt8)) = (some (chain [] (.trim t.init)), ⟨[]⟩) := rfl
  have hread : streamCollect (taking (pre ++ [u]).length) (some (chain [] (.trim t)))
      (⟨[]⟩ : ArrayCollector UInt8) (pre ++ [u]) =
        .ok ((out, some (chain [] (.trim t'))), []) := by
    have htake : (pre ++ [u]).take pre.length = pre := by simp
    have hdrop : (pre ++ [u]).drop pre.length = [u] := by simp
    have hlist := (folds_chain []).streamCollect_num [] pre.length
      (some (chain [] (.trim t))) (⟨[]⟩ : ArrayCollector UInt8) (pre ++ [u]) ⟨.trim t.init, rfl⟩
    rw [hinit, htake, hdrop, feed_chainStep_trim, hpre] at hlist
    rw [taking, List.length_append, List.length_singleton, hlist]
    simp only [Outcome.bind_ok, chainStep_trim, hstep]
    rfl
  have hrel := holds_sim.streamCollect (taking (pre ++ [u]).length) (some (chain [] (.trim t)))
    (⟨[]⟩ : ArrayCollector UInt8) _ _ (holds_ofBuffer (pre ++ [u]))
  rw [hread] at hrel
  obtain ⟨s', hs', h'⟩ := hrel.of_ok
  exact ⟨s', hs', h'⟩

theorem reuse_as_fresh_words : ∃ run run' : Run [], run.taken = [97] ∧ run'.taken = [98, 32, 99] ∧
    run'.before = run.after ∧ ∀ r ∈ [run, run'], r.AsFresh (.trim ReaderTaskTrim.mk') := by
  have hfeed : feed trimStep [97] (ReaderTaskTrim.mk'.init, (⟨[]⟩ : ArrayCollector UInt8)) =
      .ok (⟨[], false, false⟩, ⟨[97]⟩) := rfl
  have hfeed' : feed trimStep [98, 32, 99]
      ((⟨[], false, false⟩ : ReaderTaskTrim).init, (⟨[]⟩ : ArrayCollector UInt8)) =
        .ok (⟨[32], false, false⟩, ⟨[98, 32, 99]⟩) := rfl
  obtain ⟨s, hs, hrest⟩ := trim_run ReaderTaskTrim.mk' (by simp) hfeed
  obtain ⟨s', hs', hrest'⟩ := trim_run ⟨[], false, false⟩ (by simp) hfeed'
  let run : Run [] := ⟨_, _, _, [97], [], _, _, _, s, .inl (holds_ofBuffer [97]), .inl hrest, hs⟩
  let run' : Run [] := ⟨_, _, _, [98, 32, 99], [], _, _, _, s',
    .inl (holds_ofBuffer [98, 32, 99]), .inl hrest', hs'⟩
  refine ⟨run, run', rfl, rfl, rfl, ?_⟩
  have hhistory : History [] (.trim ReaderTaskTrim.mk') [run, run'] :=
    .cons run (.cons run' (.nil _))
  refine reuse_as_fresh hhistory trivial ?_
  intro r hr
  obtain rfl | hr := List.mem_cons.mp hr
  · exact Or.inr ⟨Or.inl rfl, Or.inl rfl⟩
  · obtain rfl := List.mem_singleton.mp hr
    exact Or.inr ⟨Or.inl rfl, Or.inl rfl⟩

/-- After `"a "` the task makes `"b  c"` of `"b c"`. -/
theorem reuse_second_gap : ¬ ∀ (links : List Link) (start : LastTask) (runs : List (Run links)),
    History links start runs → Initialised links start → ∀ run ∈ runs, run.AsFresh start := by
  intro hevery
  have hfeed : feed trimStep [97, 32] (ReaderTaskTrim.mk'.init, (⟨[]⟩ : ArrayCollector UInt8)) =
      .ok (⟨[32], false, true⟩, ⟨[97]⟩) := rfl
  have hfeed' : feed trimStep [98, 32, 99]
      ((⟨[32], false, true⟩ : ReaderTaskTrim).init, (⟨[]⟩ : ArrayCollector UInt8)) =
        .ok (⟨[32, 32], false, false⟩, ⟨[98, 32, 32, 99]⟩) := rfl
  have hfresh : feed trimStep [98, 32, 99]
      (ReaderTaskTrim.mk'.init.init, (⟨[]⟩ : ArrayCollector UInt8)) =
        .ok (⟨[32], false, false⟩, ⟨[98, 32, 99]⟩) := rfl
  obtain ⟨s, hs, hrest⟩ := trim_run ReaderTaskTrim.mk' (by simp) hfeed
  obtain ⟨s', hs', hrest'⟩ := trim_run ⟨[32], false, true⟩ (by simp) hfeed'
  obtain ⟨s₁, hs₁, -⟩ := trim_run ReaderTaskTrim.mk'.init (by simp) hfresh
  let run : Run [] := ⟨_, _, _, [97, 32], [], _, _, _, s, .inl (holds_ofBuffer [97, 32]),
    .inl hrest, hs⟩
  let run' : Run [] := ⟨_, _, _, [98, 32, 99], [], _, _, _, s',
    .inl (holds_ofBuffer [98, 32, 99]), .inl hrest', hs'⟩
  have hhistory : History [] (.trim ReaderTaskTrim.mk') [run, run'] :=
    .cons run (.cons run' (.nil _))
  obtain ⟨task, htask⟩ := hevery [] _ _ hhistory trivial run' (by simp)
  have hdata : ([98, 32, 99] : List UInt8) = [98, 32, 32, 99] :=
    (Prod.mk.inj (Prod.mk.inj (Outcome.ok.inj (hs₁.symm.trans htask))).1).1
  exact absurd hdata (by decide)

end WylesLibs.Stream
