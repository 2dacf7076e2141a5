import WylesLibs.Library.Calls
import WylesLibs.Library.Links

/-! The connection timer of `server_connection_timer.h`. A connection is named by the number of its
allocation, so that what is freed is never found again by accident. -/
namespace WylesLibs.ConnectionTimer
open Library

structure Connection where
  fd : Int
  startS : Int
  timeoutS : UInt32
  next : Option Nat
  prev : Option Nat

/-- The globals, the heap, and the descriptors that have been closed. -/
structure Timer where
  connections : Nat → Option Connection
  allocated : Nat
  start : Option Nat
  end_ : Option Nat
  mutex : Bool
  closed : List Int

namespace Timer

def initial : Timer :=
  { connections := fun _ => none, allocated := 0, start := none, end_ := none, mutex := false,
    closed := [] }

def connectionAt (t : Timer) (i : Nat) : Outcome Connection :=
  match t.connections i with
  | some c => .ok c
  | none => .undef

def setAt (i : Nat) (f : Connection → Connection) (t : Timer) : Outcome Timer :=
  (t.connectionAt i).bind fun c =>
    .ok { t with connections := Function.update t.connections i (some (f c)) }

end Timer

/-- A mutex that is locked twice is waited for without end. -/
def lock : Call Timer Unit := fun t =>
  if t.mutex = true then (.timeout, t) else (.ok (), { t with mutex := true })

def unlock : Call Timer Unit := Call.modify fun t => { t with mutex := false }

/-- The link that leads on from `prev`, or to the first connection. -/
def linkNext (prev next : Option Nat) (t : Timer) : Outcome Timer :=
  match prev with
  | none => .ok { t with start := next }
  | some i => t.setAt i fun c => { c with next }

/-- The link that leads back from `next`, or to the last connection. -/
def linkPrev (next prev : Option Nat) (t : Timer) : Outcome Timer :=
  match next with
  | none => .ok { t with end_ := prev }
  | some i => t.setAt i fun c => { c with prev }

def removeConnection (i : Nat) (t : Timer) : Outcome Timer :=
  (t.connectionAt i).bind fun connection =>
  (linkNext connection.prev connection.next t).bind fun t =>
  (linkPrev connection.next connection.prev t).bind fun t =>
  .ok { t with connections := Function.update t.connections i none }

def closeConnection (i : Nat) (t : Timer) : Outcome Timer :=
  (t.connectionAt i).bind fun connection =>
    removeConnection i { t with closed := t.closed ++ [connection.fd] }

/-- The loop of `timerProcess`, with the readings of the clock. -/
def expire (clock : Nat → Int) : Nat → Nat → Option Nat → Timer → Outcome Timer
  | 0, _, _, _ => .timeout
  | _ + 1, _, none, t => .ok t
  | fuel + 1, k, some i, t =>
      (t.connectionAt i).bind fun current =>
      (if current.startS + current.timeoutS.toNat ≤ clock k then closeConnection i t
        else .ok t).bind fun t =>
      expire clock fuel (k + 1) current.next t

/-- One pass of `timerProcess`. -/
def timerProcess (clock : Nat → Int) : Call Timer Unit := do
  lock
  Call.become fun t => expire clock (t.allocated + 1) 0 t.start t
  unlock

/-- The loops that look for a descriptor, along the links `link`. -/
def find (link : Connection → Option Nat) (fd : Int) (t : Timer) :
    Nat → Option Nat → Outcome (Option Nat)
  | 0, _ => .timeout
  | _ + 1, none => .ok none
  | fuel + 1, some i =>
      (t.connectionAt i).bind fun current =>
        if current.fd = fd then .ok (some i) else find link fd t fuel (link current)

def timerSetTimeout (fd : Int) (timeoutS : UInt32) : Call Timer Unit := do
  let current ← Call.view Timer.end_
  lock
  Call.become fun t =>
    (find Connection.prev fd t (t.allocated + 1) current).bind fun
      | some i => t.setAt i fun c => { c with timeoutS }
      | none => .ok t
  unlock

def timerGetTimeout (fd : Int) : Call Timer UInt32 := do
  let current ← Call.view Timer.end_
  lock
  let t ← Call.view id
  match ← Call.lift (find Connection.prev fd t (t.allocated + 1) current) with
  | some i =>
      let connection ← Call.lift (t.connectionAt i)
      pure connection.timeoutS
  | none =>
      unlock
      pure 0

/-- A connection that is not linked yet. -/
def allocate (fd : Int) (timeoutS : UInt32) (now : Int) (t : Timer) : Timer :=
  { t with
    connections := Function.update t.connections t.allocated
      (some { fd, startS := now, timeoutS, next := none, prev := none }),
    allocated := t.allocated + 1 }

/-- The connection is linked behind the last one. -/
def linkAtEnd (connection : Nat) (t : Timer) : Outcome Timer :=
  match t.end_ with
  | none => .undef
  | some last =>
      (t.setAt last fun c => { c with next := some connection }).bind fun t =>
      (t.setAt connection fun c => { c with prev := t.end_ }).bind fun t =>
      .ok { t with end_ := some connection }

def timerAddConnection (fd : Int) (timeoutS : UInt32) (now : Int) : Call Timer Unit := do
  let connection ← Call.view Timer.allocated
  Call.modify (allocate fd timeoutS now)
  match ← Call.view Timer.start with
  | none => Call.modify fun t => { t with start := some connection, end_ := some connection }
  | some _ =>
      lock
      Call.become (linkAtEnd connection)
      unlock

def timerRemoveConnection (fd : Int) (close : Bool) : Call Timer Unit := do
  lock
  Call.become fun t =>
    (find Connection.next fd t (t.allocated + 1) t.start).bind fun
      | some i => if close = true then closeConnection i t else .ok t
      | none => .ok t
  unlock

inductive TimerCall where
  | add (fd : Int) (timeoutS : UInt32) (now : Int)
  | remove (fd : Int) (close : Bool)
  | setTimeout (fd : Int) (timeoutS : UInt32)
  | getTimeout (fd : Int)
  | process (clock : Nat → Int)

def TimerCall.onTimer : TimerCall → Call Timer Unit
  | add fd timeoutS now => timerAddConnection fd timeoutS now
  | remove fd close => timerRemoveConnection fd close
  | setTimeout fd timeoutS => timerSetTimeout fd timeoutS
  | getTimeout fd => do
      let _ ← timerGetTimeout fd
      pure ()
  | process clock => timerProcess clock

/-! What a list of connections looks like. -/

namespace Timer

def next (t : Timer) (i : Nat) : Option Nat := (t.connections i).bind Connection.next
def prev (t : Timer) (i : Nat) : Option Nat := (t.connections i).bind Connection.prev

/-- The nodes from `root` on. -/
def follow (t : Timer) : Nat → Option Nat → List Nat
  | 0, _ => []
  | _ + 1, none => []
  | fuel + 1, some i => i :: t.follow fuel (t.next i)

/-- The descriptors in the list. -/
def fds (t : Timer) : List Int :=
  (t.follow t.allocated t.start).filterMap fun i => (t.connections i).map Connection.fd

/-- The list is linked the same way from both ends, over the nodes `l`, none of which is freed. -/
structure Linked (t : Timer) (l : List Nat) : Prop where
  forward : Links t.next t.start l
  backward : Links t.prev t.end_ l.reverse
  live : ∀ i ∈ l, ∃ c, t.connections i = some c
  allocated : ∀ i c, t.connections i = some c → i < t.allocated

end Timer

/-- The call returns, leaves the mutex free and the list in shape, and nothing in it of a descriptor
that it has removed. -/
structure Right (t : Timer) (call : TimerCall) : Prop where
  returns : (call.onTimer t).1 = .ok ()
  mutex : (call.onTimer t).2.mutex = false
  linked : ∃ l, (call.onTimer t).2.Linked l
  removed : ∀ fd close, call = .remove fd close → fd ∉ (call.onTimer t).2.fds

/-- What a call of the timer needs to be right. -/
def Safe (t : Timer) : TimerCall → Prop
  | .getTimeout fd => fd ∉ t.fds
  | .remove fd close => fd ∉ t.fds ∨ close = true ∧ t.fds.count fd = 1
  | _ => True

section
variable {t t' : Timer} {l pre post : List Nat} {i : Nat} {fd : Int}

/-- Two states with the same descriptors, and nothing closed between them. -/
structure Same (t t' : Timer) : Prop where
  fds : ∀ i, (t'.connections i).map Connection.fd = (t.connections i).map Connection.fd
  allocated : t'.allocated = t.allocated
  mutex : t'.mutex = t.mutex
  closed : t'.closed = t.closed

theorem Same.live (h : Same t t') (hi : ∃ c, t.connections i = some c) :
    ∃ c, t'.connections i = some c := by
  obtain ⟨c, hc⟩ := hi
  have hfd := h.fds i
  rw [hc, Option.map_some, Option.map_eq_some_iff] at hfd
  obtain ⟨c', hc', -⟩ := hfd
  exact ⟨c', hc'⟩

theorem Same.symm (h : Same t t') : Same t' t :=
  ⟨fun i => (h.fds i).symm, h.allocated.symm, h.mutex.symm, h.closed.symm⟩

theorem Same.trans {t'' : Timer} (h : Same t t') (h' : Same t' t'') : Same t t'' :=
  ⟨fun i => (h'.fds i).trans (h.fds i), h'.allocated.trans h.allocated, h'.mutex.trans h.mutex,
    h'.closed.trans h.closed⟩

theorem setAt_spec {f : Connection → Connection} (hi : ∃ c, t.connections i = some c)
    (hf : ∀ c, (f c).fd = c.fd) :
    ∃ c, t.connections i = some c ∧
      t.setAt i f = .ok { t with connections := Function.update t.connections i (some (f c)) } ∧
      Same t { t with connections := Function.update t.connections i (some (f c)) } := by
  obtain ⟨c, hc⟩ := hi
  refine ⟨c, hc, by rw [Timer.setAt, Timer.connectionAt, hc]; rfl, ?_, rfl, rfl, rfl⟩
  intro j
  by_cases hj : j = i
  · subst hj
    simp [hc, hf]
  · simp [Function.update_of_ne hj]

theorem linkNext_spec {prev next : Option Nat} (hprev : ∀ p ∈ prev, ∃ c, t.connections p = some c) :
    ∃ t', linkNext prev next t = .ok t' ∧ Same t t' ∧
      (t'.next, t'.start) = redirect t.next t.start prev next ∧ t'.prev = t.prev ∧
      t'.end_ = t.end_ := by
  cases prev with
  | none => exact ⟨_, rfl, ⟨fun _ => rfl, rfl, rfl, rfl⟩, rfl, rfl, rfl⟩
  | some p =>
    obtain ⟨c, hc, hset, hsame⟩ := @setAt_spec t p (fun c => { c with next }) (hprev p rfl)
      fun _ => rfl
    refine ⟨_, hset, hsame, Prod.ext (funext fun j => ?_) rfl, funext fun j => ?_, rfl⟩
    · by_cases hj : j = p
      · subst hj
        simp [Timer.next, redirect]
      · simp [Timer.next, redirect, Function.update_of_ne hj]
    · by_cases hj : j = p
      · subst hj
        simp [Timer.prev, hc]
      · simp [Timer.prev, Function.update_of_ne hj]

theorem linkPrev_spec {next prev : Option Nat} (hnext : ∀ n ∈ next, ∃ c, t.connections n = some c) :
    ∃ t', linkPrev next prev t = .ok t' ∧ Same t t' ∧
      (t'.prev, t'.end_) = redirect t.prev t.end_ next prev ∧ t'.next = t.next ∧
      t'.start = t.start := by
  cases next with
  | none => exact ⟨_, rfl, ⟨fun _ => rfl, rfl, rfl, rfl⟩, rfl, rfl, rfl⟩
  | some n =>
    obtain ⟨c, hc, hset, hsame⟩ := @setAt_spec t n (fun c => { c with prev }) (hnext n rfl)
      fun _ => rfl
    refine ⟨_, hset, hsame, Prod.ext (funext fun j => ?_) rfl, funext fun j => ?_, rfl⟩
    · by_cases hj : j = n
      · subst hj
        simp [Timer.prev, redirect]
      · simp [Timer.prev, redirect, Function.update_of_ne hj]
    · by_cases hj : j = n
      · subst hj
        simp [Timer.next, hc]
      · simp [Timer.next, Function.update_of_ne hj]

/-- In a list both ends of a node lead to its neighbours. -/
theorem Timer.Linked.neighbours (h : t.Linked (pre ++ i :: post)) :
    t.next i = post.head? ∧ t.prev i = pre.getLast? := by
  constructor
  · obtain ⟨-, -, -, hnext⟩ := leads_append.mp h.forward
    cases post with
    | nil => exact hnext
    | cons j post => exact hnext.1
  · have hback := h.backward
    rw [List.reverse_append, List.reverse_cons, List.append_assoc] at hback
    obtain ⟨-, -, -, hprev⟩ := leads_append.mp hback
    rw [← List.head?_reverse]
    cases hrev : pre.reverse with
    | nil =>
      rw [hrev] at hprev
      exact hprev
    | cons j l =>
      rw [hrev] at hprev
      exact hprev.1

theorem Timer.Linked.lt (h : t.Linked l) (hi : i ∈ l) : i < t.allocated := by
  obtain ⟨c, hc⟩ := h.live i hi
  exact h.allocated i c hc

theorem removeConnection_ok (h : t.Linked (pre ++ i :: post)) :
    ∃ t', removeConnection i t = .ok t' ∧ t'.Linked (pre ++ post) ∧ t'.mutex = t.mutex ∧
      t'.closed = t.closed ∧ t'.allocated = t.allocated ∧
      ∀ j ∈ pre ++ post, (t'.connections j).map Connection.fd =
        (t.connections j).map Connection.fd := by
  obtain ⟨hnext, hprev⟩ := h.neighbours
  obtain ⟨c, hc⟩ := h.live i (by simp)
  have hcnext : c.next = t.next i := by simp [Timer.next, hc]
  have hcprev : c.prev = t.prev i := by simp [Timer.prev, hc]
  obtain ⟨t₁, hlink₁, hsame₁, hforward₁, hprev₁, hend₁⟩ := @linkNext_spec t (t.prev i) (t.next i) (by
    intro p hp
    rw [hprev] at hp
    exact h.live p (List.mem_append_left _ (List.mem_of_getLast? hp)))
  obtain ⟨t₂, hlink₂, hsame₂, hback₂, hnext₂, hstart₂⟩ := @linkPrev_spec t₁ (t.next i) (t.prev i) (by
    intro n hn
    rw [hnext] at hn
    have hmem := List.mem_of_head? hn
    exact hsame₁.live (h.live n (by simp [hmem])))
  have hsame := hsame₁.trans hsame₂
  have hnodup := h.forward.nodup
  have hne : ∀ j ∈ pre ++ post, j ≠ i := by
    intro j hj hji
    have hnot : i ∉ pre ++ post := (List.nodup_middle.mp hnodup).notMem
    exact hnot (hji ▸ hj)
  refine ⟨{ t₂ with connections := Function.update t₂.connections i none }, ?_, ?_, hsame.mutex,
    hsame.closed, hsame.allocated, ?_⟩
  · simp only [removeConnection, Timer.connectionAt, hc, Outcome.bind_ok, hcnext, hcprev, hlink₁,
      hlink₂]
  · constructor
    · have hunsplice := h.forward.unsplice none
      rw [← hprev, ← hforward₁, ← hnext₂, ← hstart₂] at hunsplice
      refine hunsplice.congr fun j hj => ?_
      simp [Timer.next, Function.update_of_ne (hne j hj)]
    · have hback : Links t.prev t.end_ (post.reverse ++ i :: pre.reverse) := by
        simpa using h.backward
      have hunsplice := hback.unsplice none
      rw [hprev₁, hend₁] at hback₂
      rw [List.getLast?_reverse, ← hnext, ← hback₂, ← List.reverse_append] at hunsplice
      refine hunsplice.congr fun j hj => ?_
      simp [Timer.prev, Function.update_of_ne (hne j (List.mem_reverse.mp hj))]
    · intro j hj
      have hlive := hsame.live (h.live j (by
        rw [List.mem_append] at hj
        rw [List.mem_append, List.mem_cons]
        exact hj.imp_right Or.inr))
      simpa [Function.update_of_ne (hne j hj)] using hlive
    · intro j d hd
      by_cases hj : j = i
      · subst hj
        simp at hd
      · simp only [Function.update_of_ne hj] at hd
        obtain ⟨d', hd'⟩ := hsame.symm.live ⟨d, hd⟩
        exact hsame.allocated ▸ h.allocated j d' hd'
  · intro j hj
    simp only [Function.update_of_ne (hne j hj), hsame.fds]

/-! What is in the list. -/

/-- The descriptor of a node. -/
def Timer.fdAt (t : Timer) (i : Nat) : Option Int := (t.connections i).map Connection.fd

theorem follow_eq {root : Option Nat} {fuel : Nat} (h : Links t.next root l)
    (hfuel : l.length ≤ fuel) : t.follow fuel root = l := by
  induction l generalizing root fuel with
  | nil =>
    obtain rfl : root = none := h
    cases fuel with
    | zero => rfl
    | succ fuel => rfl
  | cons i l ih =>
    obtain ⟨rfl, hnext⟩ := h
    cases fuel with
    | zero => cases hfuel
    | succ fuel =>
      rw [Timer.follow, ih hnext (Nat.le_of_succ_le_succ hfuel)]

theorem Timer.Linked.length_le (h : t.Linked l) : l.length ≤ t.allocated := by
  have hsubset : l.toFinset ⊆ Finset.range t.allocated := by
    intro i hi
    exact Finset.mem_range.mpr (h.lt (List.mem_toFinset.mp hi))
  have hcard := Finset.card_le_card hsubset
  rwa [List.toFinset_card_of_nodup h.forward.nodup, Finset.card_range] at hcard

theorem Timer.Linked.fds_eq (h : t.Linked l) : t.fds = l.filterMap t.fdAt := by
  rw [Timer.fds, follow_eq h.forward h.length_le]
  rfl

theorem Timer.Linked.mem_fds (h : t.Linked l) : fd ∈ t.fds ↔ ∃ i ∈ l, t.fdAt i = some fd := by
  rw [h.fds_eq, List.mem_filterMap]

theorem find_spec {link : Connection → Option Nat} {root : Option Nat} {fuel : Nat}
    (h : Links (fun i => (t.connections i).bind link) root l)
    (hlive : ∀ i ∈ l, ∃ c, t.connections i = some c) (hfuel : l.length < fuel) :
    find link fd t fuel root = .ok (l.find? fun i => t.fdAt i == some fd) := by
  induction l generalizing root fuel with
  | nil =>
    obtain rfl : root = none := h
    cases fuel with
    | zero => cases hfuel
    | succ fuel => rfl
  | cons i l ih =>
    obtain ⟨rfl, hnext⟩ := h
    obtain ⟨⟨c, hc⟩, hlive'⟩ := List.forall_mem_cons.mp hlive
    cases fuel with
    | zero => cases hfuel
    | succ fuel =>
      simp only [hc, Option.bind_some] at hnext
      have hrest := ih hnext hlive' (Nat.lt_of_succ_lt_succ hfuel)
      rw [find, Timer.connectionAt, hc, Outcome.bind_ok, List.find?_cons, Timer.fdAt, hc]
      by_cases hfd : c.fd = fd
      · simp [hfd]
      · have hbeq : (c.fd == fd) = false := by simpa using hfd
        simp [hfd, hrest, hbeq]

theorem closeConnection_ok (h : t.Linked (pre ++ i :: post)) (hfd : t.fdAt i = some fd) :
    ∃ t', closeConnection i t = .ok t' ∧ t'.Linked (pre ++ post) ∧ t'.mutex = t.mutex ∧
      t'.closed = t.closed ++ [fd] ∧ t'.allocated = t.allocated ∧
      ∀ j ∈ pre ++ post, t'.fdAt j = t.fdAt j := by
  obtain ⟨c, hc, hcfd⟩ := Option.map_eq_some_iff.mp hfd
  have h' : ({ t with closed := t.closed ++ [c.fd] } : Timer).Linked (pre ++ i :: post) :=
    ⟨h.forward, h.backward, h.live, h.allocated⟩
  obtain ⟨t', ht', hlinked, hmutex, hclosed, hallocated, hfds⟩ := removeConnection_ok h'
  refine ⟨t', ?_, hlinked, hmutex, hcfd ▸ hclosed, hallocated, hfds⟩
  rw [closeConnection, Timer.connectionAt, hc, Outcome.bind_ok, ht']

/-- The rest of a pass: what it closes was in the list, and what it leaves was. -/
theorem expire_ok {clock : Nat → Int} {fuel k : Nat} {kept todo : List Nat}
    (h : t.Linked (kept ++ todo)) (hfuel : todo.length < fuel) :
    ∃ t' l' gone, expire clock fuel k todo.head? t = .ok t' ∧ t'.Linked l' ∧
      t'.mutex = t.mutex ∧ t'.closed = t.closed ++ gone ∧
      (∀ fd ∈ gone, ∃ i ∈ todo, t.fdAt i = some fd) ∧
      (∀ i ∈ l', i ∈ kept ++ todo ∧ t'.fdAt i = t.fdAt i) := by
  induction todo generalizing t kept fuel k with
  | nil =>
    cases fuel with
    | zero => cases hfuel
    | succ fuel =>
      exact ⟨t, kept ++ [], [], rfl, h, rfl, (List.append_nil _).symm,
        fun fd hfd => absurd hfd List.not_mem_nil, fun i hi => ⟨hi, rfl⟩⟩
  | cons i todo ih =>
    cases fuel with
    | zero => cases hfuel
    | succ fuel =>
      obtain ⟨c, hc⟩ := h.live i (by simp)
      have hnext : c.next = todo.head? := by
        rw [← h.neighbours.1, Timer.next, hc]
        rfl
      have hfuel' : todo.length < fuel := Nat.lt_of_succ_lt_succ hfuel
      have hfd : t.fdAt i = some c.fd := by rw [Timer.fdAt, hc]; rfl
      rw [List.head?_cons, expire, Timer.connectionAt, hc, Outcome.bind_ok, hnext]
      by_cases hexpired : c.startS + c.timeoutS.toNat ≤ clock k
      · obtain ⟨t₁, hclose, hlinked, hmutex, hclosed, -, hfds⟩ := closeConnection_ok h hfd
        obtain ⟨t', l', gone, hrun, hlinked', hmutex', hclosed', hgone, hleft⟩ :=
          @ih t₁ fuel (k + 1) kept hlinked hfuel'
        refine ⟨t', l', c.fd :: gone, ?_, hlinked', hmutex'.trans hmutex, ?_, ?_, ?_⟩
        · rw [if_pos hexpired, hclose, Outcome.bind_ok, hrun]
        · rw [hclosed', hclosed, List.append_assoc]
          rfl
        · intro fd hmem
          cases hmem with
          | head => exact ⟨i, List.mem_cons_self, hfd⟩
          | tail _ hmem =>
            obtain ⟨j, hj, hjfd⟩ := hgone fd hmem
            rw [hfds j (List.mem_append_right _ hj)] at hjfd
            exact ⟨j, List.mem_cons_of_mem _ hj, hjfd⟩
        · intro j hj
          obtain ⟨hmem, hjfd⟩ := hleft j hj
          refine ⟨?_, hjfd.trans (hfds j hmem)⟩
          rw [List.mem_append] at hmem ⊢
          exact hmem.imp_right (List.mem_cons_of_mem _)
      · have h' : t.Linked ((kept ++ [i]) ++ todo) := by simpa using h
        obtain ⟨t', l', gone, hrun, hlinked', hmutex', hclosed', hgone, hleft⟩ :=
          @ih t fuel (k + 1) (kept ++ [i]) h' hfuel'
        refine ⟨t', l', gone, ?_, hlinked', hmutex', hclosed', ?_, ?_⟩
        · rw [if_neg hexpired, Outcome.bind_ok, hrun]
        · intro fd hmem
          obtain ⟨j, hj, hjfd⟩ := hgone fd hmem
          exact ⟨j, List.mem_cons_of_mem _ hj, hjfd⟩
        · intro j hj
          obtain ⟨hmem, hjfd⟩ := hleft j hj
          exact ⟨by simpa using hmem, hjfd⟩

/-! The calls, with the mutex free. -/

/-- What a call leaves: a list in shape, and a free mutex. -/
structure Settled (t : Timer) : Prop where
  mutex : t.mutex = false
  linked : ∃ l, t.Linked l

theorem locked_ok {f : Timer → Outcome Timer} (hmutex : t.mutex = false)
    (hf : f { t with mutex := true } = .ok t') :
    (do lock; Call.become f; unlock : Call Timer Unit) t = (.ok (), { t' with mutex := false }) := by
  have hlock : lock t = (.ok (), { t with mutex := true }) := by
    rw [lock, if_neg (by rw [hmutex]; decide)]
  rw [Call.bind_of_ok hlock, Call.bind_of_ok (Call.become_of_ok hf)]
  rfl

theorem Timer.Linked.withMutex (h : t.Linked l) (b : Bool) :
    ({ t with mutex := b } : Timer).Linked l :=
  ⟨h.forward, h.backward, h.live, h.allocated⟩

theorem find_next (fd : Int) (h : t.Linked l) :
    find Connection.next fd t (t.allocated + 1) t.start =
      .ok (l.find? fun i => t.fdAt i == some fd) :=
  find_spec h.forward h.live (Nat.lt_succ_of_le h.length_le)

theorem find_prev (fd : Int) (h : t.Linked l) :
    find Connection.prev fd t (t.allocated + 1) t.end_ =
      .ok (l.reverse.find? fun i => t.fdAt i == some fd) := by
  apply find_spec h.backward
  · intro i hi
    exact h.live i (List.mem_reverse.mp hi)
  · rw [List.length_reverse]
    exact Nat.lt_succ_of_le h.length_le

theorem withMutex_self (hmutex : t.mutex = false) :
    ({ ({ t with mutex := true } : Timer) with mutex := false } : Timer) = t := by
  rw [← hmutex]

/-- Without the descriptor nothing happens; otherwise its first connection is the one that counts. -/
theorem timerRemoveConnection_ok (fd : Int) (hmutex : t.mutex = false) (h : t.Linked l)
    (close : Bool) :
    (fd ∉ t.fds ∧ timerRemoveConnection fd close t = (.ok (), t)) ∨
      ∃ pre i post, l = pre ++ i :: post ∧ (∀ j ∈ pre, t.fdAt j ≠ some fd) ∧
        t.fdAt i = some fd ∧
        (close = false → timerRemoveConnection fd close t = (.ok (), t)) ∧
        (close = true → ∃ t', timerRemoveConnection fd close t = (.ok (), t') ∧
          t'.mutex = false ∧ t'.Linked (pre ++ post) ∧
          ∀ j ∈ pre ++ post, t'.fdAt j = t.fdAt j) := by
  have h' := h.withMutex true
  obtain ⟨pre, i, post, rfl, hpre, hi, hfind, -⟩ | ⟨hnone, hfind⟩ :=
    first_match l fun i => t.fdAt i == some fd
  · have hi' : t.fdAt i = some fd := by simpa using hi
    have hfound := (find_next fd h').trans (congrArg Outcome.ok hfind)
    refine Or.inr ⟨pre, i, post, rfl, fun j hj => by simpa using hpre j hj, hi', ?_, ?_⟩
    · rintro rfl
      rw [timerRemoveConnection, @locked_ok t { t with mutex := true } _ hmutex,
        withMutex_self hmutex]
      simp only [hfound, Outcome.bind_ok]
      rfl
    · rintro rfl
      obtain ⟨t', hclose, hlinked, -, -, -, hfds⟩ := closeConnection_ok h' hi'
      refine ⟨{ t' with mutex := false }, ?_, rfl, hlinked.withMutex false, hfds⟩
      rw [timerRemoveConnection, locked_ok hmutex]
      simp only [hfound, Outcome.bind_ok]
      exact hclose
  · have hmissing := (find_next fd h').trans (congrArg Outcome.ok hfind)
    refine Or.inl ⟨?_, ?_⟩
    · rw [h.mem_fds]
      rintro ⟨i, hi, hfd⟩
      simpa [hfd] using hnone i hi
    · rw [timerRemoveConnection, @locked_ok t { t with mutex := true } _ hmutex,
        withMutex_self hmutex]
      simp only [hmissing, Outcome.bind_ok]

theorem Timer.Linked.of_same (h : t.Linked l) (hsame : Same t t') (hnext : t'.next = t.next)
    (hprev : t'.prev = t.prev) (hstart : t'.start = t.start) (hend : t'.end_ = t.end_) :
    t'.Linked l := by
  constructor
  · rw [hnext, hstart]
    exact h.forward
  · rw [hprev, hend]
    exact h.backward
  · exact fun i hi => hsame.live (h.live i hi)
  · intro i c hc
    obtain ⟨c', hc'⟩ := hsame.symm.live ⟨c, hc⟩
    exact hsame.allocated ▸ h.allocated i c' hc'

theorem timerSetTimeout_ok (hmutex : t.mutex = false) (h : t.Linked l) (fd : Int)
    (timeoutS : UInt32) :
    ∃ t', timerSetTimeout fd timeoutS t = (.ok (), t') ∧ t'.mutex = false ∧ t'.Linked l ∧
      ∀ j, t'.fdAt j = t.fdAt j := by
  have h' := h.withMutex true
  have hcall : ∀ t', (find Connection.prev fd { t with mutex := true } (t.allocated + 1)
      t.end_).bind (fun
        | some i => ({ t with mutex := true } : Timer).setAt i fun c => { c with timeoutS }
        | none => .ok { t with mutex := true }) = .ok t' →
      timerSetTimeout fd timeoutS t = (.ok (), { t' with mutex := false }) := by
    intro t' ht'
    rw [timerSetTimeout, Call.bind_of_ok (Call.view_apply _ _)]
    exact locked_ok hmutex ht'
  have hfind := find_prev fd h'
  cases hfirst : l.reverse.find? fun i => t.fdAt i == some fd with
  | none =>
    refine ⟨t, ?_, hmutex, h, fun _ => rfl⟩
    rw [hcall { t with mutex := true }, withMutex_self hmutex]
    rw [hfind.trans (congrArg Outcome.ok hfirst), Outcome.bind_ok]
  | some i =>
    have hmem : i ∈ l := List.mem_reverse.mp (List.mem_of_find?_eq_some hfirst)
    obtain ⟨c, hc, hset, hsame⟩ := @setAt_spec { t with mutex := true } i
      (fun c => { c with timeoutS }) (h.live i hmem) fun _ => rfl
    have hlinked : ({ t with
        mutex := true,
        connections := Function.update t.connections i (some { c with timeoutS }) } : Timer).Linked
        l := by
      refine h'.of_same hsame (funext fun j => ?_) (funext fun j => ?_) rfl rfl
      · by_cases hj : j = i
        · subst hj
          simpa [Timer.next] using congrArg (Option.bind · Connection.next) hc.symm
        · simp [Timer.next, Function.update_of_ne hj]
      · by_cases hj : j = i
        · subst hj
          simpa [Timer.prev] using congrArg (Option.bind · Connection.prev) hc.symm
        · simp [Timer.prev, Function.update_of_ne hj]
    refine ⟨_, hcall _ ?_, rfl, hlinked.withMutex false, hsame.fds⟩
    rw [hfind.trans (congrArg Outcome.ok hfirst), Outcome.bind_ok]
    exact hset

/-- The mutex is kept when the descriptor is found. -/
theorem timerGetTimeout_ok (hmutex : t.mutex = false) (h : t.Linked l) (fd : Int) :
    if fd ∈ t.fds then ∃ s, timerGetTimeout fd t = (.ok s, { t with mutex := true })
    else timerGetTimeout fd t = (.ok 0, t) := by
  have h' := h.withMutex true
  have hlock : lock t = (.ok (), { t with mutex := true }) := by
    rw [lock, if_neg (by rw [hmutex]; decide)]
  have hfind : ∀ o, l.reverse.find? (fun i => t.fdAt i == some fd) = o →
      Call.lift (find Connection.prev fd { t with mutex := true } (t.allocated + 1) t.end_)
        ({ t with mutex := true } : Timer) = (.ok o, { t with mutex := true }) := by
    intro o ho
    rw [Call.lift_apply]
    exact congrArg (·, _) ((find_prev _ h').trans (congrArg Outcome.ok ho))
  have hview : Call.view id ({ t with mutex := true } : Timer) =
      (.ok { t with mutex := true }, { t with mutex := true }) := rfl
  rw [timerGetTimeout, Call.bind_of_ok (Call.view_apply _ _), Call.bind_of_ok hlock,
    Call.bind_of_ok hview]
  cases hfirst : l.reverse.find? fun i => t.fdAt i == some fd with
  | none =>
    rw [if_neg]
    · refine (Call.bind_of_ok (hfind _ hfirst)).trans ?_
      exact congrArg (_, ·) (withMutex_self hmutex)
    · rw [h.mem_fds]
      intro hcase
      obtain ⟨i, hi, hfd⟩ := hcase
      have hnone := List.find?_eq_none.mp hfirst i (List.mem_reverse.mpr hi)
      simp [hfd] at hnone
  | some i =>
    have hmem : i ∈ l := List.mem_reverse.mp (List.mem_of_find?_eq_some hfirst)
    have hfd : t.fdAt i = some fd := by simpa using List.find?_some hfirst
    obtain ⟨c, hc, -⟩ := Option.map_eq_some_iff.mp hfd
    rw [if_pos (h.mem_fds.mpr ⟨i, hmem, hfd⟩)]
    refine ⟨c.timeoutS, (Call.bind_of_ok (hfind _ hfirst)).trans ?_⟩
    have hat : Call.lift (({ t with mutex := true } : Timer).connectionAt i)
        { t with mutex := true } = (.ok c, { t with mutex := true }) := by
      simp [Timer.connectionAt, hc]
    exact Call.bind_of_ok hat

theorem timerProcess_ok (hmutex : t.mutex = false) (h : t.Linked l) (clock : Nat → Int) :
    ∃ t' l' gone, timerProcess clock t = (.ok (), t') ∧ t'.mutex = false ∧ t'.Linked l' ∧
      t'.closed = t.closed ++ gone ∧ (∀ fd ∈ gone, fd ∈ t.fds) ∧
      ∀ i ∈ l', i ∈ l ∧ t'.fdAt i = t.fdAt i := by
  have h' : ({ t with mutex := true } : Timer).Linked ([] ++ l) := h.withMutex true
  have hstart : t.start = l.head? := by
    cases l with
    | nil => exact h.forward
    | cons i l => exact h.forward.1
  obtain ⟨t', l', gone, hrun, hlinked, -, hclosed, hgone, hleft⟩ :=
    @expire_ok { t with mutex := true } clock (t.allocated + 1) 0 [] l h'
      (Nat.lt_succ_of_le h.length_le)
  refine ⟨{ t' with mutex := false }, l', gone, ?_, rfl, hlinked.withMutex false, hclosed, ?_, hleft⟩
  · rw [← hstart] at hrun
    exact locked_ok hmutex hrun
  · intro fd hfd
    exact h.mem_fds.mpr (hgone fd hfd)

theorem allocate_ok (h : t.Linked l) (fd : Int) (timeoutS : UInt32) (now : Int) :
    (allocate fd timeoutS now t).Linked l ∧ t.allocated ∉ l ∧
      (allocate fd timeoutS now t).connections t.allocated =
        some { fd, startS := now, timeoutS, next := none, prev := none } ∧
      ∀ j ∈ l, (allocate fd timeoutS now t).fdAt j = t.fdAt j := by
  have hfresh : t.allocated ∉ l := fun hmem => Nat.lt_irrefl _ (h.lt hmem)
  have hother : ∀ j ∈ l, (allocate fd timeoutS now t).connections j = t.connections j := by
    intro j hj
    exact Function.update_of_ne (fun heq : j = t.allocated => hfresh (heq ▸ hj)) _ _
  refine ⟨⟨?_, ?_, ?_, ?_⟩, hfresh, Function.update_self _ _ _, ?_⟩
  · refine h.forward.congr fun j hj => ?_
    rw [Timer.next, Timer.next, hother j hj]
  · refine h.backward.congr fun j hj => ?_
    rw [Timer.prev, Timer.prev, hother j (List.mem_reverse.mp hj)]
  · intro j hj
    rw [hother j hj]
    exact h.live j hj
  · intro j c hc
    by_cases hj : j = t.allocated
    · exact hj ▸ Nat.lt_succ_self _
    · have hold : t.connections j = some c := by
        rw [← hc]
        exact (Function.update_of_ne hj _ _).symm
      exact Nat.lt_succ_of_lt (h.allocated j c hold)
  · intro j hj
    rw [Timer.fdAt, Timer.fdAt, hother j hj]

theorem linkAtEnd_ok (h : t.Linked l) (hl : l ≠ []) (hi : i ∉ l) (hnext : t.next i = none)
    (hfd : t.fdAt i = some fd) :
    ∃ t', linkAtEnd i t = .ok t' ∧ t'.Linked (l ++ [i]) ∧ t'.mutex = t.mutex ∧
      ∀ j, t'.fdAt j = t.fdAt j := by
  have hlast : ∃ last, l.getLast? = some last :=
    ⟨l.getLast hl, List.getLast?_eq_some_getLast hl⟩
  obtain ⟨last, hlast⟩ := hlast
  have hend : t.end_ = some last := by
    have hback := h.backward
    cases hrev : l.reverse with
    | nil => exact absurd (List.reverse_eq_nil_iff.mp hrev) hl
    | cons j l' =>
      rw [hrev] at hback
      rw [← List.head?_reverse, hrev] at hlast
      exact hback.1.trans hlast
  have hmem : last ∈ l := List.mem_of_getLast? hlast
  obtain ⟨t₁, hlink₁, hsame₁, hforward, hprev₁, hend₁⟩ :=
    @linkNext_spec t (some last) (some i) (by
      intro p hp
      obtain rfl := Option.some.inj hp
      exact h.live _ hmem)
  have hlive : ∃ c, t.connections i = some c := by
    obtain ⟨c, hc, -⟩ := Option.map_eq_some_iff.mp hfd
    exact ⟨c, hc⟩
  obtain ⟨t₂, hlink₂, hsame₂, hback, hnext₂, hstart₂⟩ := @linkPrev_spec t₁ (some i) t₁.end_ (by
    intro n hn
    obtain rfl := Option.some.inj hn
    exact hsame₁.live hlive)
  have hsame := hsame₁.trans hsame₂
  have hprev₂ : t₂.prev = Function.update t.prev i t.end_ := by
    rw [← hprev₁, ← hend₁]
    exact congrArg Prod.fst hback
  rw [← hlast, ← hnext₂, ← hstart₂] at hforward
  refine ⟨{ t₂ with end_ := some i }, ?_, ?_, hsame.mutex, hsame.fds⟩
  · rw [linkAtEnd, hend]
    exact (congrArg (Outcome.bind · _) hlink₁).trans (congrArg (Outcome.bind · _) hlink₂)
  · constructor
    · have hnext₂' : t₂.next = (redirect t.next t.start l.getLast? (some i)).1 :=
        congrArg Prod.fst hforward
      have hstart₂' : t₂.start = (redirect t.next t.start l.getLast? (some i)).2 :=
        congrArg Prod.snd hforward
      refine leads_append.mpr ⟨some i, ?_, rfl, ?_⟩
      · have hleads := Leads.redirect h.forward h.forward.nodup (some i)
        rwa [← hnext₂', ← hstart₂'] at hleads
      · have hleft := @redirect_of_not_mem _ _ t.next t.start (some i) l i hi
        rw [← hnext₂', hnext] at hleft
        exact hleft
    · rw [List.reverse_append]
      refine ⟨rfl, ?_⟩
      have hi₂ : t₂.prev i = t.end_ := by rw [hprev₂, Function.update_self]
      have hrest : Links t₂.prev t.end_ l.reverse := by
        refine h.backward.congr fun j hj => ?_
        rw [hprev₂, Function.update_of_ne fun heq : j = i => hi (heq ▸ List.mem_reverse.mp hj)]
      rw [← hi₂] at hrest
      exact hrest
    · intro j hj
      rw [List.mem_append, List.mem_singleton] at hj
      cases hj with
      | inl hj => exact hsame.live (h.live j hj)
      | inr hj =>
        subst hj
        exact hsame.live hlive
    · intro j c hc
      obtain ⟨c', hc'⟩ := hsame.symm.live ⟨c, hc⟩
      exact hsame.allocated ▸ h.allocated j c' hc'

theorem timerAddConnection_ok (hmutex : t.mutex = false) (h : t.Linked l) (fd : Int)
    (timeoutS : UInt32) (now : Int) :
    ∃ t' i, timerAddConnection fd timeoutS now t = (.ok (), t') ∧ t'.mutex = false ∧
      t'.Linked (l ++ [i]) ∧ t'.fdAt i = some fd ∧ ∀ j ∈ l, t'.fdAt j = t.fdAt j := by
  obtain ⟨hlinked, hfresh, hc, hfds⟩ := allocate_ok h fd timeoutS now
  have hfd : (allocate fd timeoutS now t).fdAt t.allocated = some fd := by
    rw [Timer.fdAt, hc]
    rfl
  have hnext : (allocate fd timeoutS now t).next t.allocated = none := by
    rw [Timer.next, hc]
    rfl
  have hprev : (allocate fd timeoutS now t).prev t.allocated = none := by
    rw [Timer.prev, hc]
    rfl
  have hcall : timerAddConnection fd timeoutS now t = (do
      match ← Call.view Timer.start with
      | none =>
          Call.modify fun u => { u with start := some t.allocated, end_ := some t.allocated }
      | some _ =>
          lock
          Call.become (linkAtEnd t.allocated)
          unlock : Call Timer Unit) (allocate fd timeoutS now t) := rfl
  cases l with
  | nil =>
    have hstart : t.start = none := h.forward
    have hview : Call.view Timer.start (allocate fd timeoutS now t) =
        (.ok none, allocate fd timeoutS now t) := congrArg (fun o => (Outcome.ok o, _)) hstart
    rw [Call.bind_of_ok hview] at hcall
    refine ⟨_, t.allocated, hcall, hmutex, ⟨⟨rfl, hnext⟩, ⟨rfl, hprev⟩, ?_, hlinked.allocated⟩, hfd,
      hfds⟩
    intro j hj
    obtain rfl := List.mem_singleton.mp hj
    exact ⟨_, hc⟩
  | cons i l =>
    have hstart : t.start = some i := h.forward.1
    have hview : Call.view Timer.start (allocate fd timeoutS now t) =
        (.ok (some i), allocate fd timeoutS now t) := congrArg (fun o => (Outcome.ok o, _)) hstart
    rw [Call.bind_of_ok hview] at hcall
    obtain ⟨t', hlink, hlinked', -, hsame⟩ := linkAtEnd_ok (hlinked.withMutex true)
      (List.cons_ne_nil i l) hfresh hnext hfd
    refine ⟨{ t' with mutex := false }, t.allocated, hcall.trans (locked_ok hmutex hlink), rfl,
      hlinked'.withMutex false, (hsame _).trans hfd, fun j hj => (hsame j).trans (hfds j hj)⟩

/-! Histories. -/

theorem Right.settled {call : TimerCall} (h : Right t call) : Settled (call.onTimer t).2 :=
  ⟨h.mutex, h.linked⟩

theorem Right.of_eq {call : TimerCall} (hcall : call.onTimer t = (.ok (), t'))
    (hmutex : t'.mutex = false) (hlinked : t'.Linked l)
    (hremoved : ∀ fd close, call = .remove fd close → fd ∉ t'.fds) : Right t call := by
  constructor
  · rw [hcall]
  · rw [hcall]
    exact hmutex
  · rw [hcall]
    exact ⟨l, hlinked⟩
  · rw [hcall]
    exact hremoved

/-- The first connection of a descriptor is taken out: it is gone if there was no other. -/
theorem mem_fds_of_split (h : t.Linked (pre ++ i :: post)) (h' : t'.Linked (pre ++ post))
    (hpre : ∀ j ∈ pre, t.fdAt j ≠ some fd) (hi : t.fdAt i = some fd)
    (hsame : ∀ j ∈ pre ++ post, t'.fdAt j = t.fdAt j) : fd ∉ t'.fds ↔ t.fds.count fd = 1 := by
  have hleft : fd ∉ pre.filterMap t.fdAt := by
    rw [List.mem_filterMap]
    intro hcase
    obtain ⟨j, hj, hfd⟩ := hcase
    exact hpre j hj hfd
  have hfds : t'.fds = pre.filterMap t.fdAt ++ post.filterMap t.fdAt := by
    rw [h'.fds_eq, List.filterMap_congr hsame, List.filterMap_append]
  have hcount : t.fds.count fd = (post.filterMap t.fdAt).count fd + 1 := by
    rw [h.fds_eq, List.filterMap_append, List.filterMap_cons_some hi, List.count_append,
      List.count_eq_zero_of_not_mem hleft, List.count_cons_self, Nat.zero_add]
  rw [hfds, hcount, List.mem_append, or_iff_right hleft, ← List.count_eq_zero]
  omega

theorem right_remove_iff (hmutex : t.mutex = false) (h : t.Linked l) (fd : Int) (close : Bool) :
    Right t (.remove fd close) ↔ fd ∉ t.fds ∨ close = true ∧ t.fds.count fd = 1 := by
  obtain ⟨hnone, hcall⟩ | ⟨pre, i, post, rfl, hpre, hi, hkept, hclosed⟩ :=
    timerRemoveConnection_ok fd hmutex h close
  · refine iff_of_true (Right.of_eq hcall hmutex h ?_) (Or.inl hnone)
    intro fd' close' heq
    cases heq
    exact hnone
  · have hmem : fd ∈ t.fds := h.mem_fds.mpr ⟨i, by simp, hi⟩
    cases close with
    | false =>
      refine iff_of_false (fun hright => ?_) (by simp [hmem])
      have hremoved := hright.removed fd false rfl
      rw [TimerCall.onTimer, hkept rfl] at hremoved
      exact hremoved hmem
    | true =>
      obtain ⟨t', hcall, hmutex', hlinked', hsame⟩ := hclosed rfl
      have hgone := mem_fds_of_split h hlinked' hpre hi hsame
      constructor
      · intro hright
        have hremoved := hright.removed fd true rfl
        rw [TimerCall.onTimer, hcall] at hremoved
        exact Or.inr ⟨rfl, hgone.mp hremoved⟩
      · intro hsafe
        refine Right.of_eq hcall hmutex' hlinked' ?_
        intro fd' close' heq
        cases heq
        exact hgone.mpr (hsafe.resolve_left (not_not.mpr hmem)).2

theorem right_iff_safe (call : TimerCall) (h : Settled t) : Right t call ↔ Safe t call := by
  obtain ⟨hmutex, l, hlinked⟩ := h
  cases call with
  | add fd timeoutS now =>
    obtain ⟨t', i, hcall, hmutex', hlinked', -⟩ :=
      timerAddConnection_ok hmutex hlinked fd timeoutS now
    exact iff_of_true (Right.of_eq hcall hmutex' hlinked' fun _ _ heq => by cases heq) trivial
  | remove fd close => exact right_remove_iff hmutex hlinked fd close
  | setTimeout fd timeoutS =>
    obtain ⟨t', hcall, hmutex', hlinked', -⟩ := timerSetTimeout_ok hmutex hlinked fd timeoutS
    exact iff_of_true (Right.of_eq hcall hmutex' hlinked' fun _ _ heq => by cases heq) trivial
  | getTimeout fd =>
    have hget := timerGetTimeout_ok hmutex hlinked fd
    by_cases hmem : fd ∈ t.fds
    · rw [if_pos hmem] at hget
      obtain ⟨s, hget⟩ := hget
      refine iff_of_false (fun hright => ?_) (not_not.mpr hmem)
      have hheld := hright.mutex
      rw [TimerCall.onTimer, Call.bind_of_ok hget] at hheld
      cases hheld
    · rw [if_neg hmem] at hget
      have hcall : TimerCall.onTimer (.getTimeout fd) t = (.ok (), t) := Call.bind_of_ok hget
      exact iff_of_true (Right.of_eq hcall hmutex hlinked fun _ _ heq => by cases heq) hmem
  | process clock =>
    obtain ⟨t', l', gone, hcall, hmutex', hlinked', -⟩ := timerProcess_ok hmutex hlinked clock
    exact iff_of_true (Right.of_eq hcall hmutex' hlinked' fun _ _ heq => by cases heq) trivial

theorem not_mem_fds_of_nodes {l' : List Nat} (h : t.Linked l) (h' : t'.Linked l')
    (hnodes : ∀ j ∈ l', t'.fdAt j = some fd → ∃ i ∈ l, t.fdAt i = some fd) (hfd : fd ∉ t.fds) :
    fd ∉ t'.fds := by
  rw [h'.mem_fds]
  intro hcase
  obtain ⟨j, hj, hjfd⟩ := hcase
  exact hfd (h.mem_fds.mpr (hnodes j hj hjfd))

/-- A descriptor comes into the list only when it is added. -/
theorem not_mem_fds_step {call : TimerCall} (h : Settled t) (hsafe : Safe t call)
    (hadd : ∀ s now, call ≠ .add fd s now) (hfd : fd ∉ t.fds) : fd ∉ (call.onTimer t).2.fds := by
  obtain ⟨hmutex, l, hlinked⟩ := h
  cases call with
  | add fd' timeoutS now =>
    obtain ⟨t', i, hcall, -, hlinked', hi, hsame⟩ :=
      timerAddConnection_ok hmutex hlinked fd' timeoutS now
    rw [TimerCall.onTimer, hcall]
    refine not_mem_fds_of_nodes hlinked hlinked' (fun j hj hjfd => ?_) hfd
    rw [List.mem_append, List.mem_singleton] at hj
    cases hj with
    | inl hj => exact ⟨j, hj, (hsame j hj).symm.trans hjfd⟩
    | inr hj =>
      obtain rfl : fd' = fd := Option.some.inj (hi.symm.trans (hj ▸ hjfd))
      exact absurd rfl (hadd timeoutS now)
  | remove fd' close =>
    obtain ⟨-, hcall⟩ | ⟨pre, i, post, rfl, -, -, hkept, hclosed⟩ :=
      timerRemoveConnection_ok fd' hmutex hlinked close
    · rw [TimerCall.onTimer, hcall]
      exact hfd
    · cases close with
      | false =>
        rw [TimerCall.onTimer, hkept rfl]
        exact hfd
      | true =>
        obtain ⟨t', hcall, -, hlinked', hsame⟩ := hclosed rfl
        rw [TimerCall.onTimer, hcall]
        refine not_mem_fds_of_nodes hlinked hlinked' (fun j hj hjfd => ⟨j, ?_, ?_⟩) hfd
        · rw [List.mem_append] at hj ⊢
          exact hj.imp_right (List.mem_cons_of_mem i)
        · exact (hsame j hj).symm.trans hjfd
  | setTimeout fd' timeoutS =>
    obtain ⟨t', hcall, -, hlinked', hsame⟩ := timerSetTimeout_ok hmutex hlinked fd' timeoutS
    rw [TimerCall.onTimer, hcall]
    exact not_mem_fds_of_nodes hlinked hlinked'
      (fun j hj hjfd => ⟨j, hj, (hsame j).symm.trans hjfd⟩) hfd
  | getTimeout fd' =>
    have hget := timerGetTimeout_ok hmutex hlinked fd'
    rw [if_neg hsafe] at hget
    rw [TimerCall.onTimer, Call.bind_of_ok hget]
    exact hfd
  | process clock =>
    obtain ⟨t', l', gone, hcall, -, hlinked', -, -, hleft⟩ :=
      timerProcess_ok hmutex hlinked clock
    rw [TimerCall.onTimer, hcall]
    refine not_mem_fds_of_nodes hlinked hlinked' (fun j hj hjfd => ?_) hfd
    obtain ⟨hj', hsame⟩ := hleft j hj
    exact ⟨j, hj', hsame.symm.trans hjfd⟩

end

/-- What a call closes. -/
def closes (t : Timer) (call : TimerCall) : List Int :=
  (call.onTimer t).2.closed.drop t.closed.length

/-- Every call is right, and no pass closes a descriptor that was removed and not added since. -/
structure Kept (calls : List TimerCall) : Prop where
  right : Call.Allowed TimerCall.onTimer Right calls Timer.initial
  stale : ∀ pre fd close mid clock post,
    calls = pre ++ .remove fd close :: (mid ++ .process clock :: post) →
    (∀ s now, .add fd s now ∉ mid) →
    fd ∉ closes (Call.after TimerCall.onTimer (pre ++ .remove fd close :: mid) Timer.initial)
      (.process clock)

theorem settled_initial : Settled Timer.initial :=
  ⟨rfl, [], rfl, rfl, fun i hi => absurd hi List.not_mem_nil, fun i c hc => by cases hc⟩

theorem Settled.call {t : Timer} {call : TimerCall} (h : Settled t) (hsafe : Safe t call) :
    Settled (call.onTimer t).2 := ((right_iff_safe call h).mpr hsafe).settled

/-- A pass closes only what is in the list. -/
theorem not_mem_closes {t : Timer} {fd : Int} (h : Settled t) (hfd : fd ∉ t.fds)
    (clock : Nat → Int) : fd ∉ closes t (.process clock) := by
  obtain ⟨hmutex, l, hlinked⟩ := h
  obtain ⟨t', l', gone, hcall, -, -, hclosed, hmem, -⟩ := timerProcess_ok hmutex hlinked clock
  rw [closes, TimerCall.onTimer, hcall, hclosed, List.drop_left]
  exact fun hin => hfd (hmem fd hin)

/-- The timer does what it is for just if no timeout is asked for of a descriptor in the list, and
every removal of one closes it, and is of the only connection with it. -/
theorem timer_kept_iff (calls : List TimerCall) :
    Kept calls ↔ Call.Allowed TimerCall.onTimer Safe calls Timer.initial := by
  have hiff : Call.Allowed TimerCall.onTimer Right calls Timer.initial ↔
      Call.Allowed TimerCall.onTimer Safe calls Timer.initial :=
    Call.allowed_iff (I := Settled) (fun call _ h => right_iff_safe call h)
      (fun _ _ _ hright => hright.settled) settled_initial
  constructor
  · intro h
    exact hiff.mp h.right
  · intro hsafe
    refine ⟨hiff.mpr hsafe, ?_⟩
    rintro pre fd close mid clock post rfl hmid
    rw [Call.allowed_append] at hsafe
    obtain ⟨hpre, hremove, hrest⟩ := hsafe
    have hsettled : Settled (Call.after TimerCall.onTimer pre Timer.initial) :=
      Call.after_invariant (fun _ _ h hs => h.call hs) settled_initial hpre
    have hright := (right_iff_safe _ hsettled).mpr hremove
    -- the descriptor is gone when it has been removed, and stays away up to the pass
    have hmid' := (Call.allowed_append.mp hrest).1.and_forall
      (P := fun call => ∀ s now, call ≠ .add fd s now)
      fun call hcall s now heq => hmid s now (heq ▸ hcall)
    have hgone := Call.after_invariant (I := fun t => Settled t ∧ fd ∉ t.fds)
      (fun call t h hs => ⟨h.1.call hs.1, not_mem_fds_step h.1 hs.1 hs.2 h.2⟩)
      ⟨hright.settled, hright.removed fd close rfl⟩ hmid'
    rw [Call.after_append]
    exact not_mem_closes hgone.1 hgone.2 clock

/-- The mutex is kept by a call that finds its descriptor. -/
theorem timer_get_keeps_mutex : ¬ ∀ calls, Kept calls := by
  intro hevery
  have hkept := hevery [.add 5 60 0, .getTimeout 5]
  have hmutex := hkept.right.2.1.mutex
  exact absurd hmutex (by decide)

end WylesLibs.ConnectionTimer
