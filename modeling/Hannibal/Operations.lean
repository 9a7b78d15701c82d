/-
Operations on handles.

`Addr::stop`, `restart`, `force_send`, `call` and `ping` push on the force
path; `Addr::send`, `Sender::send` and `Caller::call` on the awaited one, where
the operation goes on only once its clone of the channel's sender is not parked
any more.  `call`, `ping` and `Caller::call` then wait for their response.  The
`try_` operations of the weak handles upgrade first.

An operation is identified by its index; `opStep` moves one of them from one
await point to the next.  `opStep_labels` lists what such a step does, by its
label, and `opStep_cases` by what it records.
-/
import Hannibal.Handles

namespace Hannibal

namespace Method

variable {A : Actor}

/-- The payload the operation enqueues. -/
def payload : Method A → Payload A
  | .stop => .stop
  | .restart => .restart
  | .forceSend m => .task (.send m)
  | .call m => .task (.call m)
  | .ping => .task .ping
  | .send m => .task (.send m)
  | .callerCall m => .task (.call m)

/-- The operation goes through `payload_tx`. -/
def awaited : Method A → Bool
  | .stop => false
  | .restart => false
  | .forceSend _ => false
  | .call _ => false
  | .ping => false
  | .send _ => true
  | .callerCall _ => true

/-- The operation has a response channel. -/
def responds : Method A → Bool
  | .stop => false
  | .restart => false
  | .forceSend _ => false
  | .call _ => true
  | .ping => true
  | .send _ => false
  | .callerCall _ => true

/-- The operation is a future; the others return before anything else of their
caller runs. -/
def isFuture (m : Method A) : Bool := m.awaited || m.responds

/-- Where a pushed operation stands. -/
def afterPush : Method A → OpState A
  | .stop => .returned (.ok none)
  | .restart => .returned (.ok none)
  | .forceSend _ => .returned (.ok none)
  | .call _ => .awaiting
  | .ping => .awaiting
  | .send _ => .flushing
  | .callerCall _ => .flushing

/-- Where a flushed operation stands. -/
def afterFlush (m : Method A) : OpState A := if m.responds then .awaiting else .returned (.ok none)

/-- The strong references an operation makes for itself: `call_fn` clones
`tx` into the future it returns. -/
def arcs : Method A → Arcs
  | .callerCall _ => ⟨1, 0⟩
  | _ => 0

end Method

/-- The operations a handle offers; those of the weak ones are `try_send`,
`try_force_send` and `try_call`. -/
def HandleKind.offers {A : Actor} : HandleKind → Method A → Bool
  | .addr, .callerCall _ => false
  | .addr, _ => true
  | .owningAddr, .callerCall _ => false
  | .owningAddr, _ => true
  | .sender, .send _ => true
  | .sender, .forceSend _ => true
  | .caller, .callerCall _ => true
  | .weakSender, .send _ => true
  | .weakSender, .forceSend _ => true
  | .weakCaller, .callerCall _ => true
  | _, _ => false

/-- `Sender::send` returns a future that borrows nothing; it holds a sender
clone instead. -/
def HandleKind.access {A : Actor} (h : ℕ) : HandleKind → Method A → Access
  | .sender, .send _ => .detached
  | _, _ => .borrowed h

def Access.arcs : Access → Arcs
  | .borrowed _ => 0
  | .owned k => k.captures
  | .detached => 0
  | .context => ⟨0, 1⟩

/-- The payload is not yet in the mailbox, or waits there for room. -/
def OpState.sending {A : Actor} : OpState A → Bool
  | .begun => true
  | .flushing => true
  | _ => false

namespace Op

variable {A : Actor}

/-- The strong references the operation holds. -/
def arcs (o : Op A) : Arcs := if o.state.live then o.access.arcs + o.method.arcs else 0

/-- The sender clones the operation holds. -/
def clones (o : Op A) : ℕ := if o.method.awaited && o.state.sending then 1 else 0

/-- An unfinished `send` or `call` future. -/
def pendingFuture (o : Op A) : Bool := o.method.isFuture && o.state.live

end Op

/-! ### Steps -/

inductive OpLabel (A : Actor) where
  | begin (m : Method A) (h : ℕ)
  | beginContext (m : Method A)
  | push (i : ℕ)
  | flush (i : ℕ)
  | respond (i : ℕ)
  | drop (i : ℕ)

namespace Sys

variable {A : Actor}

def addOp (s : Sys A) (o : Op A) : Sys A :=
  { s with
    ops := s.ops ++ [o]
    arcs := s.arcs + o.arcs
    chan := s.chan.cloneSenders o.clones }

/-- The operation starts. -/
def beginOp (s : Sys A) (m : Method A) (a : Access) : Sys A :=
  (s.addOp ⟨m, a, .begun⟩).record [.began s.ops.length]

/-- A weak reference could not be upgraded: `Err(AlreadyStopped)`. -/
def refuseOp (s : Sys A) (m : Method A) : Sys A :=
  (s.addOp ⟨m, .detached, .returned (.error .alreadyStopped)⟩).record
    [.began s.ops.length, .returned s.ops.length (.error .alreadyStopped)]

/-- The operation `i` moves on and lets go of what it does not need any more. -/
def setOp (s : Sys A) (i : ℕ) (o : Op A) (st : OpState A) : Sys A :=
  ({ s with
      ops := s.ops.set i { o with state := st }
      chan := s.chan.dropSenders (o.clones - Op.clones { o with state := st }) }).releaseArcs
    (o.arcs - Op.arcs { o with state := st })

/-- What is recorded when an operation moves to a state. -/
def returnEvents (i : ℕ) : OpState A → List (Event A)
  | .returned r => [.returned i r]
  | _ => []

def envelope (i : ℕ) (o : Op A) : Envelope A := ⟨i, o.method.payload⟩

/-- `tx.send(payload)` on either path. -/
def pushOp (s : Sys A) (i : ℕ) (o : Op A) : Sys A :=
  match s.chan.push i (envelope i o) with
  | some c =>
    (({ s with chan := c }).setOp i o o.method.afterPush).record
      (.accepted (envelope i o) :: returnEvents i o.method.afterPush)
  | none =>
    (s.setOp i o (.returned (.error .asyncSendError))).record
      [.returned i (.error .asyncSendError)]

/-- A call of `Context::stop` or `Context::restart` is in progress: it runs
inside the actor's own task, which cannot go on meanwhile. -/
def contextBusy (s : Sys A) : Bool := s.ops.any fun o => o.access = .context && o.state.live

/-- `weak_force_tx.upgrade()` in `Context::stop` and `Context::restart`. -/
def contextUpgrades (s : Sys A) : Bool := 0 < s.arcs.force

def opStep (s : Sys A) : OpLabel A → Option (Sys A)
  | .begin m h =>
    match s.handle? h with
    | some hd =>
      if hd.kind.offers m then
        if hd.kind.strong then some (s.beginOp m (hd.kind.access h m))
        else
          match s.arcs.upgrade hd.kind with
          | some k => some (s.beginOp m (.owned k))
          | none => some (s.refuseOp m)
      else none
    | none => none
  | .beginContext m =>
    if s.phase.hasContext && !m.isFuture && !s.contextBusy then
      if s.contextUpgrades then some (s.beginOp m .context) else some (s.refuseOp m)
    else none
  | .push i =>
    match s.ops[i]? with
    | some o => match o.state with
      | .begun => some (s.pushOp i o)
      | _ => none
    | none => none
  | .flush i =>
    match s.ops[i]? with
    | some o => match o.state with
      | .flushing =>
        if i ∈ s.chan.parked then none
        else some ((s.setOp i o o.method.afterFlush).record (returnEvents i o.method.afterFlush))
      | _ => none
    | none => none
  | .respond i =>
    match s.ops[i]? with
    | some o => match o.state, (s.answers i).poll with
      | .awaiting, .ready (.ok r) =>
        some ((s.setOp i o (.returned (.ok (some r)))).record [.returned i (.ok (some r))])
      | .awaiting, .ready (.error _) =>
        some ((s.setOp i o (.returned (.error .canceled))).record
          [.returned i (.error .canceled)])
      | _, _ => none
    | none => none
  | .drop i =>
    match s.ops[i]? with
    | some o => if o.pendingFuture then some (s.setOp i o .dropped) else none
    | none => none

end Sys

/-! ### What an operation step can do -/

namespace Sys

variable {A : Actor}

/-- How an operation in progress may move without anything entering the
mailbox. -/
inductive Moves (s : Sys A) (i : ℕ) (o : Op A) : OpState A → Prop where
  | refused (hst : o.state = .begun) (hr : s.chan.receiver = false) :
      Moves s i o (.returned (.error .asyncSendError))
  | flushed (hst : o.state = .flushing) (hp : i ∉ s.chan.parked) : Moves s i o o.method.afterFlush
  | answered (r : Reply A) (hst : o.state = .awaiting) (ha : s.answers i = .sent r) :
      Moves s i o (.returned (.ok (some r)))
  | canceled (hst : o.state = .awaiting) (ha : s.answers i = .canceled) :
      Moves s i o (.returned (.error .canceled))
  | dropped (hf : o.pendingFuture = true) : Moves s i o .dropped

/-- An operation step begins an operation or refuses it, pushes its payload, or
moves it on outside the mailbox; the list is what it records. -/
inductive OpStep (s : Sys A) : Sys A → List (Event A) → Prop where
  | begin (m : Method A) (h : ℕ) (hd : Handle) (hh : s.handle? h = some hd)
      (ho : hd.kind.offers m = true) (hs : hd.kind.strong = true) :
      OpStep s (s.beginOp m (hd.kind.access h m)) [.began s.ops.length]
  | upgraded (m : Method A) (w k : HandleKind) (hu : s.arcs.upgrade w = some k)
      (ho : w.offers m = true) : OpStep s (s.beginOp m (.owned k)) [.began s.ops.length]
  | context (m : Method A) (hp : s.phase.hasContext = true) (hm : m.isFuture = false)
      (hb : s.contextBusy = false) (hf : 0 < s.arcs.force) :
      OpStep s (s.beginOp m .context) [.began s.ops.length]
  | refused (m : Method A) : OpStep s (s.refuseOp m)
      [.began s.ops.length, .returned s.ops.length (.error .alreadyStopped)]
  | push (i : ℕ) (o : Op A) (d : Mpsc ℕ (Envelope A)) (ho : s.ops[i]? = some o)
      (hst : o.state = .begun) (hc : s.chan.push i (envelope i o) = some d) :
      OpStep s
        ((({ s with chan := d }).setOp i o o.method.afterPush).record
          (.accepted (envelope i o) :: returnEvents i o.method.afterPush))
        (.accepted (envelope i o) :: returnEvents i o.method.afterPush)
  | move (i : ℕ) (o : Op A) (st : OpState A) (ho : s.ops[i]? = some o) (hm : s.Moves i o st) :
      OpStep s ((s.setOp i o st).record (returnEvents i st)) (returnEvents i st)

theorem pushOp_step {s : Sys A} {i : ℕ} {o : Op A} (ho : s.ops[i]? = some o)
    (hst : o.state = .begun) : ∃ es, s.OpStep (s.pushOp i o) es := by
  unfold pushOp
  split
  · next d hc => exact ⟨_, .push i o d ho hst hc⟩
  · next hc => exact ⟨_, .move i o _ ho (.refused hst (Mpsc.push_eq_none.mp hc))⟩

/-- The same steps by their labels. -/
inductive OpStepOf (s : Sys A) : OpLabel A → Sys A → Prop where
  | begin (m : Method A) (h : ℕ) (hd : Handle) (hh : s.handle? h = some hd)
      (ho : hd.kind.offers m = true) (hs : hd.kind.strong = true) :
      OpStepOf s (.begin m h) (s.beginOp m (hd.kind.access h m))
  | upgraded (m : Method A) (h : ℕ) (hd : Handle) (k : HandleKind) (hh : s.handle? h = some hd)
      (ho : hd.kind.offers m = true) (hu : s.arcs.upgrade hd.kind = some k) :
      OpStepOf s (.begin m h) (s.beginOp m (.owned k))
  | refused (m : Method A) (h : ℕ) (hd : Handle) (hh : s.handle? h = some hd)
      (ho : hd.kind.offers m = true) (hs : hd.kind.strong = false)
      (hu : s.arcs.upgrade hd.kind = none) : OpStepOf s (.begin m h) (s.refuseOp m)
  | context (m : Method A) (hp : s.phase.hasContext = true) (hm : m.isFuture = false)
      (hb : s.contextBusy = false) (hf : s.contextUpgrades = true) :
      OpStepOf s (.beginContext m) (s.beginOp m .context)
  | contextRefused (m : Method A) (hf : s.contextUpgrades = false) :
      OpStepOf s (.beginContext m) (s.refuseOp m)
  | push (i : ℕ) (o : Op A) (ho : s.ops[i]? = some o) (hst : o.state = .begun) :
      OpStepOf s (.push i) (s.pushOp i o)
  | move (l : OpLabel A) (i : ℕ) (o : Op A) (st : OpState A)
      (hl : l = .flush i ∨ l = .respond i ∨ l = .drop i) (ho : s.ops[i]? = some o)
      (hm : s.Moves i o st) :
      OpStepOf s l ((s.setOp i o st).record (returnEvents i st))

theorem opStep_labels {s t : Sys A} {l : OpLabel A} (h : s.opStep l = some t) :
    s.OpStepOf l t := by
  cases l with
  | begin m i =>
    simp only [opStep] at h
    split at h
    · next hd hh =>
      split at h
      · next ho =>
        split at h
        · next hs =>
          cases h
          exact .begin m i hd hh ho hs
        · next hs =>
          split at h
          · next k hk =>
            cases h
            exact .upgraded m i hd k hh ho hk
          · next hu =>
            cases h
            exact .refused m i hd hh ho (by simpa using hs) hu
      · cases h
    · cases h
  | beginContext m =>
    simp only [opStep] at h
    split at h
    · next hc =>
      simp only [Bool.and_eq_true, Bool.not_eq_true'] at hc
      split at h
      · next hf =>
        cases h
        exact .context m hc.1.1 hc.1.2 hc.2 hf
      · next hf =>
        cases h
        exact .contextRefused m (by simpa using hf)
    · cases h
  | push i =>
    simp only [opStep] at h
    split at h
    · next o ho =>
      split at h
      · next hst =>
        cases h
        exact .push i o ho hst
      · cases h
    · cases h
  | flush i =>
    simp only [opStep] at h
    split at h
    · next o ho =>
      split at h
      · next hst =>
        split at h
        · cases h
        · next hp =>
          cases h
          exact .move _ i o _ (.inl rfl) ho (.flushed hst hp)
      · cases h
    · cases h
  | respond i =>
    simp only [opStep] at h
    split at h
    · next o ho =>
      split at h
      · next r hst ha =>
        cases h
        exact .move _ i o (.returned (.ok (some r))) (.inr (.inl rfl)) ho
          (.answered r hst (Oneshot.poll_eq_ok.mp ha))
      · next hst ha =>
        cases h
        refine .move _ i o (.returned (.error .canceled)) (.inr (.inl rfl)) ho (.canceled hst ?_)
        cases hs : s.answers i <;> simp [hs, Oneshot.poll] at ha ⊢
      · cases h
    · cases h
  | drop i =>
    simp only [opStep] at h
    split at h
    · next o ho =>
      split at h
      · next hf =>
        cases h
        have := OpStepOf.move (s := s) _ i o .dropped (.inr (.inr rfl)) ho (.dropped hf)
        simpa [returnEvents, record] using this
      · cases h
    · cases h

theorem opStep_cases {s s' : Sys A} {l : OpLabel A} (h : s.opStep l = some s') :
    ∃ es, s.OpStep s' es := by
  cases opStep_labels h with
  | begin m i hd hh ho hs => exact ⟨_, .begin m i hd hh ho hs⟩
  | upgraded m i hd k hh ho hu => exact ⟨_, .upgraded m hd.kind k hu ho⟩
  | refused m | contextRefused m => exact ⟨_, .refused m⟩
  | context m hp hm hb hf => exact ⟨_, .context m hp hm hb (by simpa [contextUpgrades] using hf)⟩
  | push i o ho hst => exact pushOp_step ho hst
  | move l i o st hl ho hm => exact ⟨_, .move i o st ho hm⟩

theorem Moves.live {s : Sys A} {i : ℕ} {o : Op A} {st : OpState A} (h : s.Moves i o st) :
    o.state.live = true := by
  cases h with
  | refused hst | flushed hst | answered r hst | canceled hst => simp [hst, OpState.live]
  | dropped hf =>
    rw [Op.pendingFuture, Bool.and_eq_true] at hf
    exact hf.2

theorem pushOp_ops (s : Sys A) (i : ℕ) (o : Op A) :
    ∃ st, (s.pushOp i o).ops = s.ops.set i { o with state := st } ∧
      (st = o.method.afterPush ∨ st = .returned (.error .asyncSendError)) := by
  unfold pushOp
  split
  · exact ⟨_, rfl, .inl rfl⟩
  · exact ⟨_, rfl, .inr rfl⟩

/-- A step adds the operation of its label, or moves one that is in progress. -/
theorem opStep_ops {s t : Sys A} {l : OpLabel A} (h : s.opStep l = some t) :
    (∃ o, t.ops = s.ops ++ [o] ∧
      ((∃ i, l = .begin o.method i ∧ ∀ j, o.access = .borrowed j → j = i) ∨
        (l = .beginContext o.method ∧ ∀ j, o.access ≠ .borrowed j))) ∨
    ∃ k o st, s.ops[k]? = some o ∧ o.state.live = true ∧
      t.ops = s.ops.set k { o with state := st } := by
  cases opStep_labels h with
  | begin m i hd hh ho hs =>
    refine .inl ⟨_, rfl, .inl ⟨i, rfl, fun j (hj : hd.kind.access i m = .borrowed j) => ?_⟩⟩
    unfold HandleKind.access at hj
    split at hj
    · cases hj
    · exact (Access.borrowed.inj hj).symm
  | upgraded m i | refused m i => exact .inl ⟨_, rfl, .inl ⟨i, rfl, by simp⟩⟩
  | context m | contextRefused m => exact .inl ⟨_, rfl, .inr ⟨rfl, by simp⟩⟩
  | push i o ho hst =>
    obtain ⟨st, hops, -⟩ := s.pushOp_ops i o
    exact .inr ⟨i, o, st, ho, by rw [hst]; rfl, hops⟩
  | move l i o st hl ho hm => exact .inr ⟨i, o, st, ho, hm.live, rfl⟩

end Sys

end Hannibal
