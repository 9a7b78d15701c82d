/-
Actors, messages and the state of one spawned actor.

An `Actor` collects the functions the trait implementations of an actor type
provide.  Its hooks and handlers see, besides the actor value and its context,
a `World`: whatever the outside shows them at that moment.  A handler is a
future that is polled until it is ready.

`Sys` is the state of one spawned actor with everything that can reach it: the
mailbox, the two reference-counted transmitters, the handles and the operations
in progress on them, the event loop, the stop notification and the join
handles.  Its `trace` records in order what happened; it is never read by the
transitions.
-/
import Hannibal.Mpsc

namespace Hannibal

/-- error.rs -/
inductive ActorError where
  | asyncSendError
  | canceled
  | alreadyStopped
  | serviceNotFound
  | serviceStillRunning
  | timeout
  deriving DecidableEq, Repr

/-- The traits `Actor`, `Handler`, `StreamHandler` and `Default` of one actor
type. -/
structure Actor where
  State : Type
  Ctx : Type
  Error : Type
  Message : Type
  Response : Type
  Item : Type
  Fut : Type
  World : Type
  default : State
  started : World → State → Ctx → Except Error Unit × State × Ctx
  stopped : World → State → Ctx → State × Ctx
  finished : World → State → Ctx → State × Ctx
  handle : Message → Fut
  handleItem : Item → Fut
  poll : World → Fut → State → Ctx → (Fut ⊕ Response) × State × Ctx

/-! ### Payloads -/

/-- environment/payload.rs `TaskFn`: the closures that the operations enqueue.
`call` and `ping` end by sending on their response channel. -/
inductive TaskFn (A : Actor) where
  | call (m : A.Message)
  | send (m : A.Message)
  | ping

/-- environment/payload.rs -/
inductive Payload (A : Actor) where
  | task (f : TaskFn A)
  | stop
  | restart

/-- A payload together with the operation that enqueued it; a task's response
channel is the one of that operation. -/
structure Envelope (A : Actor) where
  id : ℕ
  payload : Payload A

/-- What arrives on a response channel. -/
inductive Reply (A : Actor) where
  | pong
  | response (r : A.Response)

/-- environment/payload.rs `TaskFuture` -/
inductive TaskFuture (A : Actor) where
  | handling (fut : A.Fut) (responds : Bool)
  | ping

/-- The call `f(&mut actor, &mut ctx)`: it makes the future, nothing runs yet. -/
def TaskFn.future {A : Actor} : TaskFn A → TaskFuture A
  | .call m => .handling (A.handle m) true
  | .send m => .handling (A.handle m) false
  | .ping => .ping

/-- One poll of a task.  The response is sent in the poll that completes the
handler, there is no await point between the two. -/
def TaskFuture.poll {A : Actor} (w : A.World) (fut : TaskFuture A) (a : A.State) (c : A.Ctx) :
    (TaskFuture A ⊕ Option (Reply A)) × A.State × A.Ctx :=
  match fut with
  | .ping => (.inr (some .pong), a, c)
  | .handling fut responds =>
    match A.poll w fut a c with
    | (.inl fut, a, c) => (.inl (.handling fut responds), a, c)
    | (.inr r, a, c) => (.inr (if responds then some (.response r) else none), a, c)

/-! ### Handles -/

inductive HandleKind where
  | addr
  | owningAddr
  | sender
  | caller
  | weakAddr
  | weakSender
  | weakCaller
  deriving DecidableEq, Repr

/-- Strong counts of `payload_tx` and `payload_force_tx`. -/
structure Arcs where
  tx : ℕ
  force : ℕ
  deriving DecidableEq, Repr

instance : Add Arcs := ⟨fun a b => ⟨a.tx + b.tx, a.force + b.force⟩⟩
instance : Sub Arcs := ⟨fun a b => ⟨a.tx - b.tx, a.force - b.force⟩⟩
instance : Zero Arcs := ⟨⟨0, 0⟩⟩

@[simp] theorem Arcs.add_tx (a b : Arcs) : (a + b).tx = a.tx + b.tx := rfl
@[simp] theorem Arcs.add_force (a b : Arcs) : (a + b).force = a.force + b.force := rfl
@[simp] theorem Arcs.sub_tx (a b : Arcs) : (a - b).tx = a.tx - b.tx := rfl
@[simp] theorem Arcs.sub_force (a b : Arcs) : (a - b).force = a.force - b.force := rfl
@[simp] theorem Arcs.zero_tx : (0 : Arcs).tx = 0 := rfl
@[simp] theorem Arcs.zero_force : (0 : Arcs).force = 0 := rfl

/-- A handle: `spent` says that its clone of the running future has already
returned. -/
structure Handle where
  kind : HandleKind
  alive : Bool
  spent : Bool
  deriving DecidableEq, Repr

/-! ### Operations -/

/-- The operations that put a payload into the mailbox: `stop`, `restart`,
`forceSend`, `call` and `ping` go through `payload_force_tx`, `send` and
`callerCall` (`Caller::call`) through `payload_tx`. -/
inductive Method (A : Actor) where
  | stop
  | restart
  | forceSend (m : A.Message)
  | call (m : A.Message)
  | ping
  | send (m : A.Message)
  | callerCall (m : A.Message)

/-- What keeps the handle of an operation alive: the operation borrows it, owns
the handle a weak one was upgraded to, is a future of its own (`Sender::send`),
or runs on the actor's own context. -/
inductive Access where
  | borrowed (h : ℕ)
  | owned (k : HandleKind)
  | detached
  | context
  deriving DecidableEq, Repr

inductive OpState (A : Actor) where
  | begun
  | flushing
  | awaiting
  | returned (r : Except ActorError (Option (Reply A)))
  | dropped

structure Op (A : Actor) where
  method : Method A
  access : Access
  state : OpState A

/-! ### The event loop -/

inductive LoopError (A : Actor) where
  | hook (e : A.Error)
  | timeout

/-- How the loop's future ends. -/
inductive Exit (A : Actor) where
  | ok (a : A.State)
  | err (e : LoopError A)
  | panicked
  | dropped

/-- Where the loop's future is suspended.  In `leaving` its body is done, in
`releasing` the stop notifier is used up and the receiver still there; where in
between the context goes says `Sys.dropsContext`. -/
inductive Phase (A : Actor) where
  | starting
  | receiving
  | task (i : ℕ) (fut : TaskFuture A)
  | refreshStopping (i : ℕ)
  | refreshStarting (i : ℕ)
  | item (x : A.Item) (fut : A.Fut)
  | finishing
  | stopping
  | leaving (o : Exit A)
  | releasing (o : Exit A)
  | ended (o : Exit A)

/-- actor/restart_strategy.rs -/
inductive RestartStrategy where
  | nonRestartable
  | restartOnly
  | recreateFromDefault
  deriving DecidableEq, Repr

structure EnvironmentConfig where
  timeout : Option ℕ
  failOnTimeout : Bool

/-- What is fixed when an actor is spawned.  `stream` is `none` for
`create_loop`; for `create_loop_on_stream` it gives the items of the stream,
which ends at the first `none`. -/
structure Environment (A : Actor) where
  buffer : Option ℕ
  config : EnvironmentConfig
  strategy : RestartStrategy
  stream : Option (ℕ → Option A.Item)

/-- One round of `futures::select!`: which branch it polls first, and whether
the branch that does not belong to the mailbox (the delay, the stream) is
ready. -/
structure Select where
  otherFirst : Bool
  otherReady : Bool
  deriving DecidableEq, Repr

/-! ### Joining -/

/-- A future of `OwningAddr::join`: it takes the task's handle when it is first
polled. -/
inductive JoinState (A : Actor) where
  | created
  | holding
  | done (out : Option A.State)
  | dropped

/-! ### The whole actor -/

/-- What is recorded.  `n` counts the incarnations of the actor value. -/
inductive Event (A : Actor) where
  | began (i : ℕ)
  | accepted (e : Envelope A)
  | returned (i : ℕ) (r : Except ActorError (Option (Reply A)))
  | taken (e : Envelope A)
  | mailboxEnd
  | started (w : A.World) (n : ℕ) (ok : Bool)
  | stopped (w : A.World) (n : ℕ) (after : A.State)
  | finished (w : A.World) (n : ℕ)
  | recreated (n : ℕ)
  | refreshed (i : ℕ)
  | begun (i n : ℕ)
  | polled (w : A.World) (sel : Select) (fut : TaskFuture A)
  | completed (i : ℕ) (reply : Option (Reply A))
  | overran (i : ℕ)
  | itemTaken (x : A.Item)
  | itemPolled (w : A.World) (fut : A.Fut)
  | itemHandled (x : A.Item)
  | streamPending
  | streamEnd
  | notified
  | released
  | resolved (h : ℕ) (r : Except Canceled Unit)
  | joinPolled (j : ℕ)
  | joined (j : ℕ) (out : Option A.State)

structure Sys (A : Actor) where
  chan : Mpsc ℕ (Envelope A)
  arcs : Arcs
  handles : List Handle
  ops : List (Op A)
  answers : ℕ → Oneshot (Reply A)
  phase : Phase A
  actor : A.State
  ctx : A.Ctx
  ctxDropped : Bool
  incarnation : ℕ
  cursor : ℕ
  running : Shared Unit
  joinSlot : Bool
  joins : List (JoinState A)
  trace : List (Event A)

namespace Sys

variable {A : Actor}

def record (s : Sys A) (es : List (Event A)) : Sys A := { s with trace := s.trace ++ es }

@[simp] theorem record_chan (s : Sys A) (es) : (s.record es).chan = s.chan := rfl
@[simp] theorem record_arcs (s : Sys A) (es) : (s.record es).arcs = s.arcs := rfl
@[simp] theorem record_handles (s : Sys A) (es) : (s.record es).handles = s.handles := rfl
@[simp] theorem record_ops (s : Sys A) (es) : (s.record es).ops = s.ops := rfl
@[simp] theorem record_answers (s : Sys A) (es) : (s.record es).answers = s.answers := rfl
@[simp] theorem record_phase (s : Sys A) (es) : (s.record es).phase = s.phase := rfl
@[simp] theorem record_actor (s : Sys A) (es) : (s.record es).actor = s.actor := rfl
@[simp] theorem record_ctx (s : Sys A) (es) : (s.record es).ctx = s.ctx := rfl
@[simp] theorem record_ctxDropped (s : Sys A) (es) :
    (s.record es).ctxDropped = s.ctxDropped := rfl
@[simp] theorem record_incarnation (s : Sys A) (es) :
    (s.record es).incarnation = s.incarnation := rfl
@[simp] theorem record_cursor (s : Sys A) (es) : (s.record es).cursor = s.cursor := rfl
@[simp] theorem record_running (s : Sys A) (es) : (s.record es).running = s.running := rfl
@[simp] theorem record_joinSlot (s : Sys A) (es) : (s.record es).joinSlot = s.joinSlot := rfl
@[simp] theorem record_joins (s : Sys A) (es) : (s.record es).joins = s.joins := rfl
@[simp] theorem record_trace (s : Sys A) (es) : (s.record es).trace = s.trace ++ es := rfl

end Sys

end Hannibal
