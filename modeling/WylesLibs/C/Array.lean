import WylesLibs.Datastructures.Array

/-! The array of `c/array.c`: a buffer of bytes that holds elements of one size. Memory is always
found. Counts of elements are below `2 ^ 50`, where the product with the growth factor is exact. -/
namespace WylesLibs.C
open Library Datastructures
open Datastructures.Array (sizeRange minus)

inductive OperationResult where
  | operationSuccess
  | operationError
  | memoryOperationError
  | ioOperationError
deriving DecidableEq

structure Array where
  buf : List (Option UInt8)
  size : Nat
  cap : Nat
  sizeOfEl : Nat

/-- A sum and a product of two values of `size_t`. -/
def plus (a b : Nat) : Nat := (a + b) % sizeRange
def times (a b : Nat) : Nat := a * b % sizeRange

/-- The bytes of `source` from `start` on are copied to `target` from `offset` on. -/
def memcpy (target : List (Option UInt8)) (offset : Nat) (source : List (Option UInt8))
    (start count : Nat) : Outcome (List (Option UInt8)) :=
  if start + count ≤ source.length ∧ offset + count ≤ target.length then
    .ok (target.take offset ++ ((source.drop start).take count ++ target.drop (offset + count)))
  else .undef

def allocNewBuffer (initialCap sizeOfEl : Nat) : List (Option UInt8) :=
  newCArray UInt8 (times initialCap sizeOfEl)

def allocNewBufferForArray (arr : Array) : List (Option UInt8) :=
  allocNewBuffer arr.cap arr.sizeOfEl

def arrayInitialize (buf : List (Option UInt8)) (initialCap sizeOfEl : Nat) : Array :=
  { buf, cap := initialCap, sizeOfEl, size := 0 }

def arrayConstructor (initialCap sizeOfEl : Nat) : Array :=
  arrayInitialize (allocNewBuffer initialCap sizeOfEl) initialCap sizeOfEl

/-- `(size_t)((num_els + arr->size) * 1.75)` -/
def resizeBuf (arr : Array) (numEls : Nat) : Bool × Array :=
  if plus numEls arr.size > arr.cap then
    (true, { arr with cap := plus numEls arr.size * 7 / 4 % sizeRange })
  else (false, arr)

/-- The array is replaced by what `f` makes of it. -/
def replace (f : Array → Outcome Array) : Call Array OperationResult := do
  Call.become f
  pure .operationSuccess

def appended (els : List UInt8) (numEls : Nat) (arr : Array) : Outcome Array :=
  let totalSize := times arr.size arr.sizeOfEl
  let resized := resizeBuf arr numEls
  (if resized.1 = true then memcpy (allocNewBufferForArray resized.2) 0 arr.buf 0 totalSize
  else .ok arr.buf).bind fun buf =>
  (memcpy buf totalSize (cells els) 0 (times numEls arr.sizeOfEl)).bind fun buf =>
  .ok { resized.2 with buf, size := plus arr.size numEls }

def arrayAppend (els : List UInt8) (numEls : Nat) : Call Array OperationResult :=
  replace (appended els numEls)

def inserted (pos : Nat) (els : List UInt8) (numEls : Nat) (arr : Array) : Outcome Array :=
  let resized := (resizeBuf arr numEls).2
  let totalSizeUpToPos := times pos arr.sizeOfEl
  let totalSizeNewEls := times numEls arr.sizeOfEl
  let totalSizeAfterPos := times (minus arr.size pos) arr.sizeOfEl
  (memcpy (allocNewBufferForArray resized) 0 arr.buf 0 totalSizeUpToPos).bind fun newBuf =>
  (memcpy newBuf totalSizeUpToPos (cells els) 0 totalSizeNewEls).bind fun newBuf =>
  (memcpy newBuf (plus totalSizeUpToPos totalSizeNewEls) arr.buf totalSizeUpToPos
    totalSizeAfterPos).bind fun newBuf =>
  .ok { resized with buf := newBuf }

def arrayInsert (pos : Nat) (els : List UInt8) (numEls : Nat) : Call Array OperationResult := do
  if pos > (← Call.view Array.size) then
    pure .operationError
  else
    replace (inserted pos els numEls)

def removed (pos numEls : Nat) (arr : Array) : Outcome Array :=
  let totalSizeUpToPos := times pos arr.sizeOfEl
  let totalSizeToRemove := times numEls arr.sizeOfEl
  let totalSizeAfterRemoved := times (minus (minus arr.size pos) numEls) arr.sizeOfEl
  (memcpy (allocNewBufferForArray arr) 0 arr.buf 0 totalSizeUpToPos).bind fun newBuf =>
  (memcpy newBuf totalSizeUpToPos arr.buf (plus totalSizeUpToPos totalSizeToRemove)
    totalSizeAfterRemoved).bind fun newBuf =>
  .ok { arr with buf := newBuf }

def arrayRemove (pos numEls : Nat) : Call Array OperationResult := do
  if pos > (← Call.view Array.size) then
    pure .operationError
  else
    replace (removed pos numEls)

/-! The list that the array is for. -/

/-- An element is a block of bytes of the array's element size. -/
structure Element (sizeOfEl : Nat) where
  bytes : List UInt8
  length : bytes.length = sizeOfEl

variable {sizeOfEl : Nat}

def bytesOf (l : List (Element sizeOfEl)) : List UInt8 := l.flatMap Element.bytes

inductive ArrayCall (sizeOfEl : Nat) where
  | append (els : List (Element sizeOfEl))
  | insert (pos : Nat) (els : List (Element sizeOfEl))
  | remove (pos numEls : Nat)

namespace ArrayCall

def onArray : ArrayCall sizeOfEl → Call Array OperationResult
  | append els => arrayAppend (bytesOf els) els.length
  | insert pos els => arrayInsert pos (bytesOf els) els.length
  | remove pos numEls => arrayRemove pos numEls

def onList : ArrayCall sizeOfEl → Call (List (Element sizeOfEl)) OperationResult
  | append els => fun l => (.ok .operationSuccess, l ++ els)
  | insert pos els => fun l =>
      if pos ≤ l.length then (.ok .operationSuccess, l.take pos ++ (els ++ l.drop pos))
      else (.ok .operationError, l)
  | remove pos numEls => fun l =>
      if pos + numEls ≤ l.length then (.ok .operationSuccess, l.take pos ++ l.drop (pos + numEls))
      else (.ok .operationError, l)

end ArrayCall

/-- The array holds the elements `l`, in a buffer for as many as its capacity says. -/
structure Represents (arr : Array) (l : List (Element sizeOfEl)) : Prop where
  elements : arr.sizeOfEl = sizeOfEl
  size : arr.size = l.length
  size_le : arr.size ≤ arr.cap
  cap_lt : arr.cap < sizeRange
  allocated : arr.cap * sizeOfEl < sizeRange
  length : arr.buf.length = arr.cap * sizeOfEl
  contents : arr.buf.take (l.length * sizeOfEl) = cells (bytesOf l)

/-- A call answers as that of the list, leaves the same contents, and changes nothing when it fails. -/
structure Agrees (call : ArrayCall sizeOfEl) (arr : Array) (l : List (Element sizeOfEl)) : Prop where
  answer : (call.onArray arr).1 = (call.onList l).1
  represents : Represents (call.onArray arr).2 (call.onList l).2
  unchanged : (call.onList l).1 = .ok .operationError → (call.onArray arr).2 = arr

/-- Memory is found for the elements that are given, and for an array that has room for them. -/
def Allocates (l : List (Element sizeOfEl)) : ArrayCall sizeOfEl → Prop
  | .append els => l.length + els.length < 2 ^ 50 ∧
      (l.length + els.length) * 7 / 4 * sizeOfEl < sizeRange
  | .insert _ els => l.length + els.length < 2 ^ 50 ∧
      (l.length + els.length) * 7 / 4 * sizeOfEl < sizeRange
  | .remove _ _ => True

/-- What is inserted or removed is nothing, or the position is out of range. -/
def KeepsSize (l : List (Element sizeOfEl)) : ArrayCall sizeOfEl → Prop
  | .append _ => True
  | .insert pos els => els = [] ∨ l.length < pos
  | .remove pos numEls => numEls = 0 ∨ l.length < pos

section
variable {arr : Array} {l els : List (Element sizeOfEl)} {target source : List (Option UInt8)}
  {offset start count pos numEls : Nat}

@[simp] theorem length_bytesOf (l : List (Element sizeOfEl)) :
    (bytesOf l).length = l.length * sizeOfEl := by
  induction l with
  | nil => simp [bytesOf]
  | cons e l ih =>
    rw [bytesOf] at ih
    rw [bytesOf, List.flatMap_cons, List.length_append, e.length, ih, List.length_cons,
      Nat.succ_mul, Nat.add_comm]

@[simp] theorem bytesOf_append (l els : List (Element sizeOfEl)) :
    bytesOf (l ++ els) = bytesOf l ++ bytesOf els := List.flatMap_append

/-- A copy keeps the bytes in front of it. -/
theorem memcpy_ok (hsource : start + count ≤ source.length)
    (htarget : offset + count ≤ target.length) :
    ∃ r, memcpy target offset source start count = .ok r ∧ r.length = target.length ∧
      r.take (offset + count) = target.take offset ++ (source.drop start).take count := by
  refine ⟨_, if_pos ⟨hsource, htarget⟩, ?_, ?_⟩
  · simp only [List.length_append, List.length_take, List.length_drop]
    omega
  · rw [← List.append_assoc, List.take_left' ?_]
    simp only [List.length_append, List.length_take, List.length_drop]
    omega

theorem Represents.times_eq (h : Represents arr l) (hpos : pos ≤ arr.cap) :
    times pos arr.sizeOfEl = pos * sizeOfEl := by
  rw [h.elements]
  exact Nat.mod_eq_of_lt ((Nat.mul_le_mul_right _ hpos).trans_lt h.allocated)

theorem Represents.of_bytes {buf : List (Option UInt8)} {cap size : Nat} (hsize : size = l.length)
    (hle : size ≤ cap) (hlt : cap < sizeRange) (hcap : cap * sizeOfEl < sizeRange)
    (hlength : buf.length = cap * sizeOfEl)
    (hbuf : buf.take (l.length * sizeOfEl) = cells (bytesOf l)) :
    Represents ⟨buf, size, cap, sizeOfEl⟩ l := ⟨rfl, hsize, hle, hlt, hcap, hlength, hbuf⟩

/-- The capacity that there is for more elements. -/
theorem resizeBuf_ok (h : Represents arr l) (hcount : l.length + numEls < 2 ^ 50)
    (hbytes : (l.length + numEls) * 7 / 4 * sizeOfEl < sizeRange) :
    ∃ cap, (resizeBuf arr numEls).2 = { arr with cap } ∧ l.length + numEls ≤ cap ∧
      cap < sizeRange ∧ cap * sizeOfEl < sizeRange ∧ ((resizeBuf arr numEls).1 = false → cap = arr.cap) := by
  have hplus : plus numEls arr.size = l.length + numEls := by
    rw [plus, h.size, sizeRange, Nat.mod_eq_of_lt (by omega), Nat.add_comm]
  rw [resizeBuf, hplus]
  split
  · have hlt : (l.length + numEls) * 7 / 4 < sizeRange := by
      rw [sizeRange]
      omega
    refine ⟨(l.length + numEls) * 7 / 4, ?_, by omega, hlt, hbytes, fun hfalse => by cases hfalse⟩
    rw [Nat.mod_eq_of_lt hlt]
  · exact ⟨arr.cap, rfl, by omega, h.cap_lt, h.allocated, fun _ => rfl⟩

theorem appended_ok (h : Represents arr l) (hcount : l.length + els.length < 2 ^ 50)
    (hbytes : (l.length + els.length) * 7 / 4 * sizeOfEl < sizeRange) :
    ∃ arr', appended (bytesOf els) els.length arr = .ok arr' ∧ Represents arr' (l ++ els) := by
  obtain ⟨cap, hresized, hroom, hlt, hcap, hsame⟩ := resizeBuf_ok h hcount hbytes
  have htotal : times arr.size arr.sizeOfEl = l.length * sizeOfEl := by
    rw [h.times_eq h.size_le, h.size]
  have hroom' : l.length * sizeOfEl + els.length * sizeOfEl ≤ cap * sizeOfEl := by
    rw [← Nat.add_mul]
    exact Nat.mul_le_mul_right _ hroom
  have hnew : times els.length arr.sizeOfEl = els.length * sizeOfEl := by
    rw [h.elements]
    exact Nat.mod_eq_of_lt (by omega)
  -- the buffer before the elements are appended: the old one, or a copy of it
  obtain ⟨buf, hbuf, hlength, hcontents⟩ : ∃ buf,
      (if (resizeBuf arr els.length).1 = true then
        memcpy (allocNewBufferForArray (resizeBuf arr els.length).2) 0 arr.buf 0
          (l.length * sizeOfEl)
      else .ok arr.buf) = .ok buf ∧ buf.length = cap * sizeOfEl ∧
      buf.take (l.length * sizeOfEl) = cells (bytesOf l) := by
    split
    · have halloc : (allocNewBufferForArray (resizeBuf arr els.length).2).length =
          cap * sizeOfEl := by
        rw [hresized, allocNewBufferForArray, allocNewBuffer, length_newCArray, h.elements]
        exact Nat.mod_eq_of_lt hcap
      have hold : l.length * sizeOfEl ≤ arr.buf.length := by
        rw [h.length, ← h.size]
        exact Nat.mul_le_mul_right _ h.size_le
      obtain ⟨buf, hbuf, hlength, htake⟩ := @memcpy_ok
        (allocNewBufferForArray (resizeBuf arr els.length).2) arr.buf 0 0 (l.length * sizeOfEl)
        (by omega) (by omega)
      refine ⟨buf, hbuf, hlength.trans halloc, ?_⟩
      rw [Nat.zero_add] at htake
      rw [htake, List.drop_zero, h.contents]
      rfl
    · rename_i hkept
      refine ⟨arr.buf, rfl, ?_, h.contents⟩
      rw [h.length, hsame (Bool.not_eq_true _ ▸ hkept)]
  obtain ⟨buf', hbuf', hlength', htake'⟩ := @memcpy_ok buf (cells (bytesOf els))
    (l.length * sizeOfEl) 0 (els.length * sizeOfEl) (by simp) (by omega)
  have hsize : plus arr.size els.length = (l ++ els).length := by
    rw [plus, h.size, sizeRange, List.length_append]
    exact Nat.mod_eq_of_lt (by omega)
  refine ⟨⟨buf', plus arr.size els.length, cap, sizeOfEl⟩, ?_, ?_⟩
  · rw [appended]
    simp only [htotal, hnew, hbuf, Outcome.bind_ok, hbuf']
    rw [hresized, h.elements]
  · apply Represents.of_bytes hsize
    · rw [hsize, List.length_append]
      exact hroom
    · exact hlt
    · exact hcap
    · exact hlength'.trans hlength
    · rw [List.length_append, Nat.add_mul, htake', hcontents, bytesOf_append, cells_append,
        List.drop_zero, List.take_of_length_le (by simp)]

theorem minus_eq {a b : Nat} (hle : b ≤ a) (ha : a < sizeRange) : minus a b = a - b := by
  rw [minus, Nat.sub_add_comm hle, Nat.add_mod_right, Nat.mod_eq_of_lt (by omega)]

theorem memcpy_zero (hsource : start ≤ source.length) (htarget : offset ≤ target.length) :
    memcpy target offset source start 0 = .ok target := by
  rw [memcpy, if_pos ⟨hsource, htarget⟩]
  simp

/-- The contents are copied in two parts. -/
theorem copied_parts {cap : Nat} (h : Represents arr l) (hpos : pos ≤ l.length)
    (hcap : l.length ≤ cap) (htarget : target.length = cap * sizeOfEl) :
    ∃ buf buf', memcpy target 0 arr.buf 0 (pos * sizeOfEl) = .ok buf ∧
      memcpy buf (pos * sizeOfEl) arr.buf (pos * sizeOfEl) ((l.length - pos) * sizeOfEl) =
        .ok buf' ∧
      buf.length = cap * sizeOfEl ∧ buf'.length = cap * sizeOfEl ∧
      buf'.take (l.length * sizeOfEl) = cells (bytesOf l) := by
  have hsplit : pos * sizeOfEl + (l.length - pos) * sizeOfEl = l.length * sizeOfEl := by
    rw [← Nat.add_mul, Nat.add_sub_cancel' hpos]
  have hbuf : l.length * sizeOfEl ≤ arr.buf.length := by
    rw [h.length, ← h.size]
    exact Nat.mul_le_mul_right _ h.size_le
  have hroom := Nat.mul_le_mul_right sizeOfEl hcap
  obtain ⟨buf, hfirst, hlength, htake⟩ := @memcpy_ok target arr.buf 0 0 (pos * sizeOfEl)
    (by omega) (by omega)
  obtain ⟨buf', hsecond, hlength', htake'⟩ := @memcpy_ok buf arr.buf (pos * sizeOfEl)
    (pos * sizeOfEl) ((l.length - pos) * sizeOfEl) (by omega) (by omega)
  refine ⟨buf, buf', hfirst, hsecond, hlength.trans htarget,
    (hlength'.trans hlength).trans htarget, ?_⟩
  rw [Nat.zero_add, List.take_zero, List.nil_append, List.drop_zero] at htake
  rw [← hsplit, htake', htake, ← List.take_add, hsplit, h.contents]

theorem inserted_nil (h : Represents arr l) (hpos : pos ≤ l.length) (hcount : l.length < 2 ^ 50)
    (hbytes : l.length * 7 / 4 * sizeOfEl < sizeRange) :
    ∃ arr', inserted pos [] 0 arr = .ok arr' ∧ Represents arr' l := by
  obtain ⟨cap, hresized, hroom, hlt, hcap, -⟩ := @resizeBuf_ok _ _ l 0 h hcount hbytes
  have halloc : (allocNewBufferForArray (resizeBuf arr 0).2).length = cap * sizeOfEl := by
    rw [hresized, allocNewBufferForArray, allocNewBuffer, length_newCArray, h.elements]
    exact Nat.mod_eq_of_lt hcap
  obtain ⟨buf, buf', hfirst, hsecond, hlength, hlength', hcontents⟩ :=
    copied_parts h hpos hroom halloc
  have hle : l.length ≤ arr.cap := h.size ▸ h.size_le
  have hup : times pos arr.sizeOfEl = pos * sizeOfEl := h.times_eq (hpos.trans hle)
  have hzero : times 0 arr.sizeOfEl = 0 := by simp [times]
  have hafter : times (minus arr.size pos) arr.sizeOfEl = (l.length - pos) * sizeOfEl := by
    rw [h.size, minus_eq hpos (hle.trans_lt h.cap_lt)]
    exact h.times_eq (by omega)
  have hoffset : pos * sizeOfEl ≤ cap * sizeOfEl := Nat.mul_le_mul_right _ (by omega)
  have hplus : plus (pos * sizeOfEl) 0 = pos * sizeOfEl := Nat.mod_eq_of_lt (by omega)
  have hnone : memcpy buf (pos * sizeOfEl) (cells []) 0 0 = .ok buf :=
    memcpy_zero (Nat.zero_le _) (hlength ▸ hoffset)
  refine ⟨⟨buf', arr.size, cap, sizeOfEl⟩, ?_, ?_⟩
  · rw [inserted]
    simp only [hup, hzero, hafter, hfirst, hnone, hplus, hsecond, Outcome.bind_ok]
    rw [hresized, h.elements]
  · exact .of_bytes h.size (by rw [h.size]; omega) hlt hcap hlength' hcontents

theorem removed_zero (h : Represents arr l) (hpos : pos ≤ l.length) :
    ∃ arr', removed pos 0 arr = .ok arr' ∧ Represents arr' l := by
  have hle : l.length ≤ arr.cap := h.size ▸ h.size_le
  have halloc : (allocNewBufferForArray arr).length = arr.cap * sizeOfEl := by
    rw [allocNewBufferForArray, allocNewBuffer, length_newCArray, h.times_eq le_rfl]
  obtain ⟨buf, buf', hfirst, hsecond, -, hlength', hcontents⟩ :=
    copied_parts h hpos hle halloc
  have hup : times pos arr.sizeOfEl = pos * sizeOfEl := h.times_eq (hpos.trans hle)
  have hzero : times 0 arr.sizeOfEl = 0 := by simp [times]
  have hafter : times (minus (minus arr.size pos) 0) arr.sizeOfEl =
      (l.length - pos) * sizeOfEl := by
    have hlt := hle.trans_lt h.cap_lt
    rw [h.size, minus_eq hpos hlt, minus_eq (Nat.zero_le _) (by omega)]
    exact h.times_eq (by omega)
  have hoffset : pos * sizeOfEl ≤ arr.cap * sizeOfEl := Nat.mul_le_mul_right _ (by omega)
  have hplus : plus (pos * sizeOfEl) 0 = pos * sizeOfEl :=
    Nat.mod_eq_of_lt (hoffset.trans_lt h.allocated)
  refine ⟨{ arr with buf := buf' }, ?_, ?_⟩
  · rw [removed]
    simp only [hup, hzero, hafter, hfirst, hplus, hsecond, Outcome.bind_ok]
  · exact ⟨h.elements, h.size, h.size_le, h.cap_lt, h.allocated, hlength', hcontents⟩

/-! The calls. -/

theorem replace_of_ok {f : Array → Outcome Array} {arr' : Array} (h : f arr = .ok arr') :
    replace f arr = (.ok .operationSuccess, arr') := by
  rw [replace, Call.bind_of_ok (Call.become_of_ok h)]
  rfl

theorem replace_ne_error (f : Array → Outcome Array) (arr : Array) :
    (replace f arr).1 ≠ .ok .operationError := by
  cases hf : f arr with
  | ok arr' => simp [replace_of_ok hf]
  | thrown w => simp [replace, Call.become, bind, hf]
  | undef => simp [replace, Call.become, bind, hf]
  | timeout => simp [replace, Call.become, bind, hf]

theorem replace_size {f : Array → Outcome Array}
    (hf : ∀ arr', f arr = .ok arr' → arr'.size = arr.size) :
    (replace f arr).2.size = arr.size := by
  cases h : f arr with
  | ok arr' =>
    rw [replace_of_ok h]
    exact hf arr' h
  | thrown w => simp [replace, Call.become, bind, h]
  | undef => simp [replace, Call.become, bind, h]
  | timeout => simp [replace, Call.become, bind, h]

theorem arrayInsert_of_lt {els : List UInt8} (h : arr.size < pos) :
    arrayInsert pos els numEls arr = (.ok .operationError, arr) := by
  have hview : Call.view Array.size arr = (.ok arr.size, arr) := rfl
  rw [arrayInsert, Call.bind_of_ok hview, if_pos h]
  rfl

theorem arrayInsert_of_le {els : List UInt8} (h : pos ≤ arr.size) :
    arrayInsert pos els numEls arr = replace (inserted pos els numEls) arr := by
  have hview : Call.view Array.size arr = (.ok arr.size, arr) := rfl
  rw [arrayInsert, Call.bind_of_ok hview, if_neg (Nat.not_lt.mpr h)]

theorem arrayRemove_of_lt (h : arr.size < pos) :
    arrayRemove pos numEls arr = (.ok .operationError, arr) := by
  have hview : Call.view Array.size arr = (.ok arr.size, arr) := rfl
  rw [arrayRemove, Call.bind_of_ok hview, if_pos h]
  rfl

theorem arrayRemove_of_le (h : pos ≤ arr.size) :
    arrayRemove pos numEls arr = replace (removed pos numEls) arr := by
  have hview : Call.view Array.size arr = (.ok arr.size, arr) := rfl
  rw [arrayRemove, Call.bind_of_ok hview, if_neg (Nat.not_lt.mpr h)]

/-- Neither an insertion nor a removal changes the size. -/
theorem arrayInsert_size (pos : Nat) (els : List UInt8) (numEls : Nat) (arr : Array) :
    (arrayInsert pos els numEls arr).2.size = arr.size := by
  by_cases h : arr.size < pos
  · rw [arrayInsert_of_lt h]
  · rw [arrayInsert_of_le (Nat.not_lt.mp h)]
    apply replace_size
    intro arr' harr'
    rw [inserted] at harr'
    simp only [Outcome.bind_eq_ok] at harr'
    obtain ⟨_, _, _, _, _, _, heq⟩ := harr'
    obtain rfl := Outcome.ok.inj heq
    rw [resizeBuf]
    split
    · rfl
    · rfl

theorem arrayRemove_size (pos numEls : Nat) (arr : Array) :
    (arrayRemove pos numEls arr).2.size = arr.size := by
  by_cases h : arr.size < pos
  · rw [arrayRemove_of_lt h]
  · rw [arrayRemove_of_le (Nat.not_lt.mp h)]
    apply replace_size
    intro arr' harr'
    rw [removed] at harr'
    simp only [Outcome.bind_eq_ok] at harr'
    obtain ⟨_, _, _, _, heq⟩ := harr'
    obtain rfl := Outcome.ok.inj heq
    rfl

theorem agrees_append (h : Represents arr l) (halloc : Allocates l (.append els)) :
    Agrees (.append els) arr l := by
  obtain ⟨arr', happended, hrep⟩ := appended_ok h halloc.1 halloc.2
  have hcall : ArrayCall.onArray (.append els) arr = (.ok .operationSuccess, arr') :=
    replace_of_ok happended
  constructor
  · rw [hcall]
    rfl
  · rw [hcall]
    exact hrep
  · intro herror
    cases herror

/-- A call that fails, on both sides. -/
theorem Agrees.of_error {call : ArrayCall sizeOfEl} (h : Represents arr l)
    (harray : call.onArray arr = (.ok .operationError, arr))
    (hlist : call.onList l = (.ok .operationError, l)) : Agrees call arr l := by
  constructor
  · rw [harray, hlist]
  · rw [harray, hlist]
    exact h
  · intro _
    rw [harray]

/-- A call that succeeds without a change of the contents. -/
theorem Agrees.of_same {call : ArrayCall sizeOfEl} {arr' : Array} (h : Represents arr' l)
    (harray : call.onArray arr = (.ok .operationSuccess, arr'))
    (hlist : call.onList l = (.ok .operationSuccess, l)) : Agrees call arr l := by
  constructor
  · rw [harray, hlist]
  · rw [harray, hlist]
    exact h
  · intro herror
    rw [hlist] at herror
    cases herror

theorem agrees_insert_iff (h : Represents arr l) (halloc : Allocates l (.insert pos els)) :
    Agrees (.insert pos els) arr l ↔ els = [] ∨ l.length < pos := by
  by_cases hpos : l.length < pos
  · have harray : ArrayCall.onArray (.insert pos els) arr = (.ok .operationError, arr) :=
      arrayInsert_of_lt (h.size ▸ hpos)
    have hlist : ArrayCall.onList (.insert pos els) l = (.ok .operationError, l) :=
      if_neg (Nat.not_le.mpr hpos)
    exact iff_of_true (.of_error h harray hlist) (Or.inr hpos)
  · have hle : pos ≤ l.length := Nat.not_lt.mp hpos
    have hlist : ArrayCall.onList (.insert pos els) l =
        (.ok .operationSuccess, l.take pos ++ (els ++ l.drop pos)) := if_pos hle
    constructor
    · intro hagrees
      have hsize := hagrees.represents.size
      rw [hlist, ArrayCall.onArray, arrayInsert_size, h.size] at hsize
      have hnil : els.length = 0 := by
        simp only [List.length_append, List.length_take, List.length_drop] at hsize
        omega
      exact Or.inl (List.length_eq_zero_iff.mp hnil)
    · intro hkeeps
      obtain rfl : els = [] := hkeeps.resolve_right hpos
      obtain ⟨arr', hinserted, hrep⟩ := inserted_nil h hle halloc.1 halloc.2
      have harray : ArrayCall.onArray (.insert pos []) arr = (.ok .operationSuccess, arr') :=
        calc
          arrayInsert pos (bytesOf ([] : List (Element sizeOfEl))) 0 arr
              = replace (inserted pos [] 0) arr := arrayInsert_of_le (h.size ▸ hle)
          _ = (.ok .operationSuccess, arr') := replace_of_ok hinserted
      rw [List.nil_append, List.take_append_drop] at hlist
      exact .of_same hrep harray hlist

theorem agrees_remove_iff (h : Represents arr l) :
    Agrees (.remove pos numEls) arr l ↔ numEls = 0 ∨ l.length < pos := by
  by_cases hpos : l.length < pos
  · have harray : ArrayCall.onArray (.remove pos numEls : ArrayCall sizeOfEl) arr = (.ok .operationError, arr) :=
      arrayRemove_of_lt (h.size ▸ hpos)
    have hlist : ArrayCall.onList (.remove pos numEls) l = (.ok .operationError, l) :=
      if_neg (by omega)
    exact iff_of_true (.of_error h harray hlist) (Or.inr hpos)
  · have hle : pos ≤ l.length := Nat.not_lt.mp hpos
    have hremove : ArrayCall.onArray (.remove pos numEls : ArrayCall sizeOfEl) arr =
        replace (removed pos numEls) arr := arrayRemove_of_le (h.size ▸ hle)
    constructor
    · intro hagrees
      apply Or.inl
      by_cases hin : pos + numEls ≤ l.length
      · have hlist : ArrayCall.onList (.remove pos numEls) l =
            (.ok .operationSuccess, l.take pos ++ l.drop (pos + numEls)) := if_pos hin
        have hsize := hagrees.represents.size
        rw [hlist, ArrayCall.onArray, arrayRemove_size, h.size] at hsize
        simp only [List.length_append, List.length_take, List.length_drop] at hsize
        omega
      · have hlist : ArrayCall.onList (.remove pos numEls) l = (.ok .operationError, l) :=
          if_neg hin
        have hanswer := hagrees.answer
        rw [hlist, hremove] at hanswer
        exact absurd hanswer (replace_ne_error _ _)
    · intro hkeeps
      obtain rfl : numEls = 0 := hkeeps.resolve_right hpos
      obtain ⟨arr', hremoved, hrep⟩ := removed_zero h hle
      have hlist : ArrayCall.onList (.remove pos 0) l =
          (.ok .operationSuccess, l.take pos ++ l.drop pos) := if_pos hle
      rw [List.take_append_drop] at hlist
      exact .of_same hrep (hremove.trans (replace_of_ok hremoved)) hlist

/-- A call agrees with that of the list just if it is not an insertion or a removal that has
something to change. -/
theorem agrees_iff (call : ArrayCall sizeOfEl) (h : Represents arr l) (halloc : Allocates l call) :
    Agrees call arr l ↔ KeepsSize l call := by
  cases call with
  | append els => exact iff_of_true (agrees_append h halloc) trivial
  | insert pos els => exact agrees_insert_iff h halloc
  | remove pos numEls => exact agrees_remove_iff h

theorem represents_arrayConstructor {initialCap : Nat} (hcap : initialCap < sizeRange)
    (hbytes : initialCap * sizeOfEl < sizeRange) :
    Represents (arrayConstructor initialCap sizeOfEl) ([] : List (Element sizeOfEl)) := by
  have hlength : (allocNewBuffer initialCap sizeOfEl).length = initialCap * sizeOfEl := by
    rw [allocNewBuffer, length_newCArray]
    exact Nat.mod_eq_of_lt hbytes
  exact .of_bytes rfl (Nat.zero_le _) hcap hbytes hlength (by simp [bytesOf])

end

/-- An array answers a whole history as the list does just if it is only ever appended to: nothing
is inserted or removed that would change the size, and no removal reaches past the end. -/
theorem array_history_iff {initialCap : Nat} (hcap : initialCap < sizeRange)
    (hbytes : initialCap * sizeOfEl < sizeRange) (history : List (ArrayCall sizeOfEl))
    (halloc : Call.Allowed ArrayCall.onList Allocates history []) :
    Call.Beside ArrayCall.onArray ArrayCall.onList Agrees history
        (arrayConstructor initialCap sizeOfEl) [] ↔
      Call.Allowed ArrayCall.onList KeepsSize history [] :=
  Call.beside_iff (R := Represents) (fun call _ _ h => agrees_iff call h)
    (fun _ _ _ _ hagrees => hagrees.represents) (represents_arrayConstructor hcap hbytes) halloc

theorem array_history_appends :
    Call.Beside ArrayCall.onArray ArrayCall.onList Agrees
      [.append [⟨[1, 2], rfl⟩], .append [⟨[3, 4], rfl⟩, ⟨[5, 6], rfl⟩], .insert 2 [], .remove 4 1]
      (arrayConstructor 1 2) ([] : List (Element 2)) := by
  refine (array_history_iff (by decide) (by decide) _ ?_).mpr ?_
  · have hone : (1 : Nat) < 2 ^ 50 ∧ 1 * 7 / 4 * 2 < sizeRange := by decide
    have hthree : (3 : Nat) < 2 ^ 50 ∧ 3 * 7 / 4 * 2 < sizeRange := by decide
    exact ⟨hone, hthree, hthree, trivial, trivial⟩
  · exact ⟨trivial, trivial, Or.inl rfl, Or.inr (by decide), trivial⟩

/-- The only element is removed, and is there still. -/
theorem array_history_remove : ¬ ∀ (sizeOfEl initialCap : Nat)
    (history : List (ArrayCall sizeOfEl)), initialCap < sizeRange →
    initialCap * sizeOfEl < sizeRange → Call.Allowed ArrayCall.onList Allocates history [] →
    Call.Beside ArrayCall.onArray ArrayCall.onList Agrees history
      (arrayConstructor initialCap sizeOfEl) [] := by
  intro hevery
  have hall := hevery 1 8 [.append [⟨[1], rfl⟩], .remove 0 1] (by decide) (by decide)
    ⟨⟨by decide, by decide⟩, trivial, trivial⟩
  have hsize := hall.2.1.represents.size
  cases hsize

end WylesLibs.C
