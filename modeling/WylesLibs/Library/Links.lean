import Mathlib

/-! Singly linked lists over any nodes. `next` tells which node follows a node, if any.
Independent of what else the nodes hold. -/
namespace WylesLibs.Library
variable {ι : Type}

/-- A list has a first element that matches, or none. -/
theorem first_match {α : Type} (l : List α) (p : α → Bool) :
    (∃ pre a post, l = pre ++ a :: post ∧ (∀ b ∈ pre, p b = false) ∧ p a = true ∧
      l.find? p = some a ∧ l.eraseP p = pre ++ post) ∨
      (∀ b ∈ l, p b = false) ∧ l.find? p = none := by
  cases hfind : l.find? p with
  | none => exact Or.inr ⟨fun b hb => by simpa using List.find?_eq_none.mp hfind b hb, rfl⟩
  | some a =>
    obtain ⟨ha, pre, post, rfl, hpre⟩ := List.find?_eq_some_iff_append.mp hfind
    have hpre' : ∀ b ∈ pre, p b = false := fun b hb => by simpa using hpre b hb
    refine Or.inl ⟨pre, a, post, rfl, hpre', ha, rfl, ?_⟩
    rw [List.eraseP_append_right _ fun b hb => by simp [hpre' b hb], List.eraseP_cons_of_pos ha]

/-- A list in the order of a key stays so when an element is put in behind those of its key. -/
theorem pairwise_orderedInsert {α β : Type} [LinearOrder β] {key : α → β} {r : α → α → Prop}
    [DecidableRel r] (hr : ∀ a b, r a b ↔ key a < key b) {l : List α}
    (hl : l.Pairwise fun a b => key a ≤ key b) (b : α) :
    (l.orderedInsert r b).Pairwise fun a b => key a ≤ key b := by
  induction l with
  | nil => exact List.pairwise_singleton _ b
  | cons a l ih =>
    obtain ⟨ha, hl⟩ := List.pairwise_cons.mp hl
    by_cases hlt : r b a
    · have hle : key b ≤ key a := ((hr b a).mp hlt).le
      rw [List.orderedInsert_cons_of_le _ l hlt]
      refine List.pairwise_cons.mpr ⟨fun c hc => ?_, List.pairwise_cons.mpr ⟨ha, hl⟩⟩
      obtain rfl | hc := List.mem_cons.mp hc
      · exact hle
      · exact hle.trans (ha c hc)
    · have hle : key a ≤ key b := not_lt.mp fun h => hlt ((hr b a).mpr h)
      rw [List.orderedInsert_of_not_le _ l hlt]
      refine List.pairwise_cons.mpr ⟨fun c hc => ?_, ih hl⟩
      obtain rfl | hc := (List.mem_orderedInsert _).mp hc
      · exact hle
      · exact ha c hc

/-- From `root` the links lead over the nodes `l` to `stop`. -/
def Leads (next : ι → Option ι) : Option ι → List ι → Option ι → Prop
  | root, [], stop => root = stop
  | root, i :: l, stop => root = some i ∧ Leads next (next i) l stop

/-- The whole list from `root` is `l`. -/
abbrev Links (next : ι → Option ι) (root : Option ι) (l : List ι) : Prop := Leads next root l none

section
variable {next next' : ι → Option ι} {root stop mid : Option ι} {i : ι} {l pre post : List ι}

@[simp] theorem leads_nil : Leads next root [] stop ↔ root = stop := Iff.rfl

@[simp] theorem leads_cons :
    Leads next root (i :: l) stop ↔ root = some i ∧ Leads next (next i) l stop := Iff.rfl

theorem leads_append :
    Leads next root (pre ++ post) stop ↔ ∃ mid, Leads next root pre mid ∧ Leads next mid post stop := by
  induction pre generalizing root with
  | nil => simp
  | cons i pre ih => simp [ih, and_assoc]

/-- Only the links of the nodes passed over count. -/
theorem Leads.congr (h : Leads next root l stop) (hnext : ∀ i ∈ l, next' i = next i) :
    Leads next' root l stop := by
  induction l generalizing root with
  | nil => exact h
  | cons i l ih =>
    refine ⟨h.1, ?_⟩
    rw [hnext i List.mem_cons_self]
    exact ih h.2 fun j hj => hnext j (List.mem_cons_of_mem i hj)

theorem Links.unique {l' : List ι} (h : Links next root l) (h' : Links next root l') : l = l' := by
  induction l generalizing root l' with
  | nil =>
    cases l' with
    | nil => rfl
    | cons j l' => exact absurd (h.symm.trans h'.1) (by simp)
  | cons i l ih =>
    cases l' with
    | nil => exact absurd (h'.symm.trans h.1) (by simp)
    | cons j l' =>
      obtain rfl : i = j := Option.some.inj (h.1.symm.trans h'.1)
      rw [ih h.2 h'.2]

/-- A list that comes to an end passes no node twice. -/
theorem Links.nodup (h : Links next root l) : l.Nodup := by
  induction l generalizing root with
  | nil => exact List.nodup_nil
  | cons i l ih =>
    refine List.nodup_cons.mpr ⟨fun hmem => ?_, ih h.2⟩
    obtain ⟨pre, post, hl⟩ := List.append_of_mem hmem
    have hrest : Links next (next i) (pre ++ i :: post) := hl ▸ h.2
    obtain ⟨mid, -, -, hpost⟩ := leads_append.mp hrest
    have hlen := congrArg List.length (hrest.unique hpost)
    simp at hlen
    omega

theorem Links.eq_nil (h : Links next none l) : l = [] := h.unique rfl

end

/-! The place that a loop over the list comes to: the root, or the link of the node it passed
last. -/

section
variable [DecidableEq ι]

/-- The links and the root with another target in the place behind `prev`. -/
def redirect (next : ι → Option ι) (root prev target : Option ι) : (ι → Option ι) × Option ι :=
  match prev with
  | none => (next, target)
  | some p => (Function.update next p target, root)

variable {next : ι → Option ι} {root stop mid target : Option ι} {pre : List ι}

theorem Leads.redirect (h : Leads next root pre mid) (hnodup : pre.Nodup) (target : Option ι) :
    Leads (redirect next root pre.getLast? target).1 (redirect next root pre.getLast? target).2
      pre target := by
  induction pre using List.reverseRecOn with
  | nil => rfl
  | append_singleton pre p _ =>
    obtain ⟨-, -, hdisjoint⟩ := List.nodup_append.mp hnodup
    obtain ⟨m, hpre, rfl, -⟩ := leads_append.mp h
    rw [List.getLast?_concat]
    refine leads_append.mpr ⟨some p, hpre.congr fun i hi => ?_, rfl, ?_⟩
    · exact Function.update_of_ne (hdisjoint i hi p (List.mem_singleton_self p)) _ _
    · exact Function.update_self _ _ _

theorem redirect_of_not_mem {i : ι} (hi : i ∉ pre) :
    (Library.redirect next root pre.getLast? target).1 i = next i := by
  cases hlast : pre.getLast? with
  | none => rfl
  | some p =>
    have hmem := List.mem_of_getLast? hlast
    exact Function.update_of_ne (fun h => hi (by rwa [h])) _ _

variable {a : ι} {post : List ι}

/-- A new node between `pre` and `post`. -/
theorem Leads.splice (hpre : Leads next root pre mid) (hpost : Links next mid post)
    (hnodup : (pre ++ post).Nodup) (ha : a ∉ pre ++ post) :
    Links (Function.update (Library.redirect next root pre.getLast? (some a)).1 a mid)
      (Library.redirect next root pre.getLast? (some a)).2 (pre ++ a :: post) := by
  obtain ⟨hpreNodup, -, hdisjoint⟩ := List.nodup_append.mp hnodup
  rw [List.mem_append, not_or] at ha
  refine leads_append.mpr ⟨some a, (hpre.redirect hpreNodup _).congr fun j hj => ?_, rfl, ?_⟩
  · exact Function.update_of_ne (fun h => ha.1 (by rwa [← h])) _ _
  · rw [Function.update_self]
    refine hpost.congr fun j hj => ?_
    rw [Function.update_of_ne fun h => ha.2 (by rwa [← h])]
    exact redirect_of_not_mem fun h => hdisjoint j h j hj rfl

/-- The list without the node between `pre` and `post`. -/
theorem Links.unsplice (h : Links next root (pre ++ a :: post)) (last : Option ι) :
    Links (Function.update (Library.redirect next root pre.getLast? (next a)).1 a last)
      (Library.redirect next root pre.getLast? (next a)).2 (pre ++ post) := by
  obtain ⟨hpreNodup, hpostNodup, hdisjoint⟩ := List.nodup_append.mp h.nodup
  obtain ⟨mid, hpre, rfl, hpost⟩ := leads_append.mp h
  refine leads_append.mpr ⟨next a, (hpre.redirect hpreNodup _).congr fun j hj => ?_,
    hpost.congr fun j hj => ?_⟩
  · exact Function.update_of_ne (hdisjoint j hj a List.mem_cons_self) _ _
  · have hne : j ≠ a := fun h => (List.nodup_cons.mp hpostNodup).1 (h ▸ hj)
    rw [Function.update_of_ne hne]
    exact redirect_of_not_mem fun h => hdisjoint j h j (List.mem_cons_of_mem a hj) rfl

end
end WylesLibs.Library
