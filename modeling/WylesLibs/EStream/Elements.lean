import WylesLibs.EStream.Memory

/-! `readEls` on a stream that holds more, as many or fewer elements than it asks for. -/
namespace WylesLibs.Stream
open Library
variable {α : Type}

namespace EStream

theorem fillBuffer_end {s : EStream α} (hnone : s.unread = []) :
    fillBuffer s = .thrown "Read error." := by
  unfold fillBuffer
  cases hfd : s.fd with
  | none => rfl
  | some d =>
    obtain ⟨chunks, e⟩ := d
    obtain rfl : chunks = [] := by simpa [unread, hfd] using hnone
    rfl

/-- The buffer is filled again until the descriptor has nothing more. -/
theorem readElsLoop_short {n : Nat} (steps elsRead : Nat) (data : List α) {s : EStream α}
    (h : s.WellFormed) (hu : s.ungot = false) (hb : s.badbit = false)
    (hlt : s.remaining.length < n - elsRead) (hsteps : n - elsRead < steps)
    (hpast : s.readPastBuffer = false) :
    readElsLoop n steps elsRead data s = .thrown "Read error." := by
  induction steps generalizing elsRead data s with
  | zero => omega
  | succ steps ih =>
    have hcur := cursor_lt_of_not_past h hpast
    have hlen : s.remaining.length = s.buffer.length - s.cursor + s.unread.flatten.length := by
      simp [remaining, hu]
    have hdone : elsRead < n := by omega
    have hmore : n - elsRead > s.elsInBuffer - s.cursor := by
      rw [h.els]
      omega
    have hstep : readElsLoop n (steps + 1) elsRead data s =
        (fillBuffer >>= fun _ => readElsLoop n steps (elsRead + (s.elsInBuffer - s.cursor))
          (data ++ (s.buffer.drop s.cursor).take (s.elsInBuffer - s.cursor))) s := by
      simp [readElsLoop, hdone, hmore]
    rw [hstep]
    by_cases hnone : s.unread = []
    · simp [fillBuffer_end hnone]
    · obtain ⟨chunk, chunks, e, hfd⟩ := fd_of_unread hnone
      have hrest := ih (elsRead + (s.elsInBuffer - s.cursor))
        (data ++ (s.buffer.drop s.cursor).take (s.elsInBuffer - s.cursor)) (h.filled hfd hu hb) hu hb
        (by rw [remaining_filled hfd hu, h.els]; omega) (by rw [h.els]; omega)
        (readPastBuffer_filled h hfd)
      simp [fillBuffer_eq h hfd, hrest]

theorem readEls_short {n : Nat} {s : EStream α} (h : s.WellFormed)
    (hlt : s.remaining.length < n) : ∃ w, readEls n s = .thrown w := by
  have hz : n ≠ 0 := by omega
  by_cases hlimit : n ≤ arbitraryLimitBecauseDumb
  · refine ⟨"Read error.", ?_⟩
    have hlim : ¬ n > arbitraryLimitBecauseDumb := by omega
    cases hp : s.readPastBuffer with
    | true =>
      have hu := h.ungot_of_past hp
      have hrem := remaining_of_past h hp
      by_cases hnone : s.unread = []
      · simp [readEls, hz, hlim, hp, fillBuffer_end hnone]
      · obtain ⟨chunk, chunks, e, hfd⟩ := fd_of_unread hnone
        have hb : s.badbit = false := by
          apply h.badbit_of_remaining
          rw [hrem]
          exact unread_flatten_ne_nil h hnone
        have hloop := @readElsLoop_short _ n (n + 1) 0 [] _ (h.filled hfd hu hb) hu hb
          (by rw [remaining_filled hfd hu, ← hrem]; omega) (by omega) (readPastBuffer_filled h hfd)
        simp [readEls, hz, hlim, hp, fillBuffer_eq h hfd, hloop]
    | false =>
      have hb := h.badbit_of_remaining (remaining_ne_nil_of_not_past h hp)
      by_cases hu : s.cursor = 0 ∧ s.ungot = true
      · have h₁ : ({ s with ungot := false } : EStream α).WellFormed :=
          { poll := h.poll, chunk := h.chunk, els := h.els, cursor := h.cursor
            ungot := by simp, badbit := by simp [hb] }
        have hrem : s.remaining = s.ungotEl :: ({ s with ungot := false } : EStream α).remaining := by
          simp [remaining, hu, unread]
        have hloop := @readElsLoop_short _ n (n + 1) 1 [s.ungotEl] _ h₁ rfl hb
          (by rw [hrem] at hlt; simp only [List.length_cons] at hlt; omega) (by omega) hp
        simpa [readEls, hz, hlim, hp, hu] using hloop
      · have hug : s.ungot = false := by
          cases hug : s.ungot with
          | false => rfl
          | true => exact absurd ⟨(h.ungot hug).1, hug⟩ hu
        have hloop := @readElsLoop_short _ n (n + 1) 0 [] s h hug hb (by omega) (by omega) hp
        simp [readEls, hz, hlim, hp, hug, hloop]
  · have hread : readEls n s = .thrown _ := (if_neg hz).trans (if_pos (by omega))
    exact ⟨_, hread⟩

end EStream

/-- A count that can be asked for is served just if there are as many elements. -/
theorem readEls_holds {n : Nat} {l : List α} {s : EStream α} (hs : Holds s l) :
    (1 ≤ n ∧ n ≤ arbitraryLimitBecauseDumb ∧ n ≤ l.length ∧
      ∃ s', EStream.readEls n s = .ok (l.take n, s') ∧ Holds s' (l.drop n)) ∨
    (¬ (1 ≤ n ∧ n ≤ arbitraryLimitBecauseDumb ∧ n ≤ l.length) ∧
      ∃ w, EStream.readEls n s = .thrown w) := by
  obtain ⟨h, rfl⟩ := hs
  by_cases hz : n = 0
  · right
    exact ⟨by omega, _, by rw [EStream.readEls, if_pos hz]⟩
  by_cases hlimit : n ≤ arbitraryLimitBecauseDumb
  · by_cases hle : n ≤ s.remaining.length
    · left
      obtain ⟨s', hread, h', hrest⟩ := EStream.readEls_spec (by omega) hlimit h hle
      exact ⟨by omega, hlimit, hle, s', hread, h', hrest⟩
    · right
      exact ⟨by omega, EStream.readEls_short h (by omega)⟩
  · right
    have hread : EStream.readEls n s = .thrown _ := (if_neg hz).trans (if_pos (by omega))
    exact ⟨by omega, _, hread⟩

end WylesLibs.Stream
