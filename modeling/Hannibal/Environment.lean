/-
The two event loops.

`loopStep` moves the future of `create_loop` or `create_loop_on_stream` from
one await point to the next.  The hooks, one poll of a task, one round of a
`select!` and the three steps of every exit (the stop notifier is used up, the
context is dropped, and last the receiver) are steps of their own, so that
everything else can happen in between.
-/
import Hannibal.Operations

namespace Hannibal

/-- One poll of `timeout_fut`. -/
inductive TaskPoll (A : Actor) where
  | pending (fut : TaskFuture A)
  | ok (reply : Option (Reply A))
  | timeout

/-- One poll of `timeout_fut`: without a timeout the task alone is polled, with
one a `select!` polls the task and the delay in either order and takes the
first that is ready. -/
def timeoutFut {A : Actor} (timeout : Option ℕ) (sel : Select) (w : A.World) (fut : TaskFuture A)
    (a : A.State) (c : A.Ctx) : TaskPoll A × A.State × A.Ctx :=
  match timeout with
  | none =>
    match fut.poll w a c with
    | (.inl fut, a, c) => (.pending fut, a, c)
    | (.inr reply, a, c) => (.ok reply, a, c)
  | some _ =>
    -- the delay is polled first and already over: the task is not polled again
    if sel.otherFirst && sel.otherReady then (.timeout, a, c)
    else
      match fut.poll w a c with
      | (.inr reply, a, c) => (.ok reply, a, c)
      | (.inl fut, a, c) => if sel.otherReady then (.timeout, a, c) else (.pending fut, a, c)

namespace Environment

variable {A : Actor}

/-- `Environment::from_channel` and the spawn: one `OwningAddr`, the loop not
polled yet.  The two transmitters capture one sender clone each. -/
def init (E : Environment A) (a : A.State) (c : A.Ctx) : Sys A where
  chan := (Mpsc.channel E.buffer).cloneSenders 1
  arcs := ⟨1, 1⟩
  handles := [⟨.owningAddr, true, false⟩]
  ops := []
  answers := fun _ => .pending
  phase := .starting
  actor := a
  ctx := c
  ctxDropped := false
  incarnation := 0
  cursor := 0
  running := ⟨.pending, none⟩
  joinSlot := true
  joins := []
  trace := []

/-- The timeout a task runs under: `create_loop_on_stream` awaits it bare. -/
def taskTimeout (E : Environment A) : Option ℕ :=
  match E.stream with
  | none => E.config.timeout
  | some _ => none

/-- What follows the receive loop: `create_loop_on_stream` calls `finished`
before `stopped`. -/
def afterLoop (E : Environment A) : Phase A :=
  match E.stream with
  | none => .stopping
  | some _ => .finishing

end Environment

inductive LoopLabel (A : Actor) where
  | hook (w : A.World)
  | recv
  | select (sel : Select)
  | pollTask (w : A.World) (sel : Select)
  | pollItem (w : A.World)
  | panic
  | drop
  | notify
  | dropContext
  | release

namespace Sys

variable {A : Actor}

/-! ### Hooks -/

/-- `actor.started(ctx).await?`; `next` is where the loop goes on success and
`after` what else is recorded then. -/
def startedHook (s : Sys A) (w : A.World) (after : List (Event A)) : Sys A :=
  match A.started w s.actor s.ctx with
  | (.ok _, a, c) =>
    ({ s with actor := a, ctx := c, phase := .receiving }).record
      (.started w s.incarnation true :: after)
  | (.error e, a, c) =>
    ({ s with actor := a, ctx := c, phase := .leaving (.err (.hook e)) }).record
      [.started w s.incarnation false]

/-- `actor.stopped(ctx).await` -/
def stoppedHook (s : Sys A) (w : A.World) : Sys A :=
  ({ s with
      actor := (A.stopped w s.actor s.ctx).1
      ctx := (A.stopped w s.actor s.ctx).2 }).record
    [.stopped w s.incarnation (A.stopped w s.actor s.ctx).1]

/-- `actor.finished(ctx).await` -/
def finishedHook (s : Sys A) (w : A.World) : Sys A :=
  ({ s with
      actor := (A.finished w s.actor s.ctx).1
      ctx := (A.finished w s.actor s.ctx).2 }).record [.finished w s.incarnation]

/-- `actor = A::default()` -/
def recreate (s : Sys A) : Sys A :=
  ({ s with actor := A.default, incarnation := s.incarnation + 1 }).record
    [.recreated (s.incarnation + 1)]

/-- `R::refresh(actor, ctx).await?` up to its first await point. -/
def refresh (s : Sys A) (R : RestartStrategy) (i : ℕ) : Sys A :=
  match R with
  | .nonRestartable => ({ s with phase := .receiving }).record [.refreshed i]
  | .restartOnly => { s with phase := .refreshStopping i }
  | .recreateFromDefault => { s with phase := .refreshStopping i }

/-- The awaited hook completes. -/
def hook (E : Environment A) (s : Sys A) (w : A.World) : Option (Sys A) :=
  match s.phase with
  | .starting => some (s.startedHook w [])
  | .refreshStopping i =>
    match E.strategy with
    | .recreateFromDefault =>
      some { (s.stoppedHook w).recreate with phase := .refreshStarting i }
    | _ => some { s.stoppedHook w with phase := .refreshStarting i }
  | .refreshStarting i => some (s.startedHook w [.refreshed i])
  | .finishing => some { s.finishedHook w with phase := .stopping }
  | .stopping => some { s.stoppedHook w with phase := .leaving (.ok (A.stopped w s.actor s.ctx).1) }
  | _ => none

/-! ### Receiving -/

def beginTask (s : Sys A) (i : ℕ) (f : TaskFn A) : Sys A :=
  ({ s with phase := .task i f.future }).record [.begun i s.incarnation]

/-- The body of `create_loop`'s `match event`. -/
def createLoopMatch (E : Environment A) (s : Sys A) (e : Envelope A) : Sys A :=
  match e.payload with
  | .restart => s.refresh E.strategy e.id
  | .task f => s.beginTask e.id f
  | .stop => { s with phase := .stopping }

/-- The body of `create_loop_on_stream`'s `match event`. -/
def createLoopOnStreamMatch (s : Sys A) (e : Envelope A) : Sys A :=
  match e.payload with
  | .task f => s.beginTask e.id f
  | .stop => { s with phase := .finishing }
  | .restart => { s with phase := .leaving .panicked }

def onPayload (E : Environment A) (s : Sys A) (e : Envelope A) : Sys A :=
  match E.stream with
  | none => s.createLoopMatch E e
  | some _ => s.createLoopOnStreamMatch e

theorem onPayload_mailbox {E : Environment A} (hs : E.stream = none) (s : Sys A)
    (e : Envelope A) : s.onPayload E e = s.createLoopMatch E e := by
  rw [onPayload, hs]

theorem onPayload_stream {E : Environment A} {items : ℕ → Option A.Item}
    (hs : E.stream = some items) (s : Sys A) (e : Envelope A) :
    s.onPayload E e = s.createLoopOnStreamMatch e := by
  rw [onPayload, hs]

/-- `payload_stream.next()` is ready. -/
def receive (E : Environment A) (s : Sys A) : Option (Sys A) :=
  match s.chan.pollNext with
  | .ready (some e) => some (({ s with chan := s.chan.advance }).record [.taken e] |>.onPayload E e)
  | .ready none => some (({ s with phase := E.afterLoop }).record [.mailboxEnd])
  | .pending => none

/-- `stream.next()` is ready. -/
def receiveItem (s : Sys A) (items : ℕ → Option A.Item) : Sys A :=
  match items s.cursor with
  | some x =>
    ({ s with cursor := s.cursor + 1, phase := .item x (A.handleItem x) }).record [.itemTaken x]
  | none => ({ s with phase := .finishing }).record [.streamEnd]

/-- One round of `create_loop_on_stream`'s `select!`.  Both `next` futures are
made afresh and the one that loses is dropped; a `next` that was not ready has
taken nothing. -/
def select (E : Environment A) (s : Sys A) (items : ℕ → Option A.Item) (sel : Select) : Sys A :=
  if sel.otherFirst then
    if sel.otherReady then s.receiveItem items
    else ((s.record [.streamPending]).receive E).getD (s.record [.streamPending])
  else
    (s.receive E).getD
      (if sel.otherReady then s.receiveItem items else s.record [.streamPending])

/-! ### Running a task or an item -/

/-- The task's future completed; with a response it was sent in that poll. -/
def complete (s : Sys A) (i : ℕ) (reply : Option (Reply A)) : Sys A :=
  ({ s with
      phase := .receiving
      answers := match reply with
        | some r => Function.update s.answers i ((s.answers i).send r)
        | none => s.answers }).record [.completed i reply]

/-- The payload `i` is dropped, and its response sender with it. -/
def dropAnswer (s : Sys A) (i : ℕ) : Sys A :=
  { s with answers := Function.update s.answers i (s.answers i).dropSender }

/-- `timeout_fut` returned `Err(Timeout)`. -/
def overrun (E : Environment A) (s : Sys A) (i : ℕ) : Sys A :=
  ({ s.dropAnswer i with
      phase := if E.config.failOnTimeout then .leaving (.err .timeout) else .receiving }).record
    [.overran i]

def pollTask (E : Environment A) (s : Sys A) (i : ℕ) (fut : TaskFuture A) (w : A.World)
    (sel : Select) : Sys A :=
  let r := timeoutFut E.taskTimeout sel w fut s.actor s.ctx
  let t := ({ s with actor := r.2.1, ctx := r.2.2 }).record [.polled w sel fut]
  match r.1 with
  | .pending fut => { t with phase := .task i fut }
  | .ok reply => t.complete i reply
  | .timeout => t.overrun E i

def pollItem (s : Sys A) (x : A.Item) (fut : A.Fut) (w : A.World) : Sys A :=
  let r := A.poll w fut s.actor s.ctx
  let t := ({ s with actor := r.2.1, ctx := r.2.2 }).record [.itemPolled w fut]
  match r.1 with
  | .inl fut => { t with phase := .item x fut }
  | .inr _ => ({ t with phase := .receiving }).record [.itemHandled x]

/-! ### Leaving -/

/-- The future stops for good at an await point; a task in progress is dropped
with it. -/
def crash (s : Sys A) (o : Exit A) : Sys A :=
  match s.phase with
  | .task i _ => { s.dropAnswer i with phase := .leaving o }
  | _ => { s with phase := .leaving o }

/-- The context goes next.  What the future has captured is dropped in the order of
the fields of `Environment`: the context, the stop notifier, the mailbox.  Only on
the way to `Ok(actor)` the notifier is moved out and sent before. -/
def dropsContext (s : Sys A) : Bool :=
  !s.ctxDropped &&
    match s.phase with
    | .leaving (.ok _) => false
    | .leaving _ => true
    | .releasing _ => true
    | _ => false

/-- The context is dropped; what its `drop` does is said where contexts are. -/
def dropContext (s : Sys A) : Sys A := { s with ctxDropped := true }

/-- The stop notifier is sent on the way to `Ok(actor)` and dropped on every
other exit. -/
def notify (s : Sys A) (o : Exit A) : Sys A :=
  ({ s with
      phase := .releasing o
      running := { s.running with
        inner := match o with
          | .ok _ => s.running.inner.send ()
          | _ => s.running.inner.dropSender } }).record [.notified]

/-- The receiver is dropped with everything still queued. -/
def release (s : Sys A) (o : Exit A) : Sys A :=
  ({ s with
      phase := .ended o
      chan := s.chan.close
      answers := fun i =>
        if i ∈ s.chan.queue.map Envelope.id then (s.answers i).dropSender
        else s.answers i }).record [.released]

@[simp] theorem dropContext_phase (s : Sys A) : s.dropContext.phase = s.phase := rfl

/-- The context is dropped on the way out only. -/
theorem phase_of_dropsContext {s : Sys A} (h : s.dropsContext = true) :
    ∃ o, s.phase = .leaving o ∨ s.phase = .releasing o := by
  unfold dropsContext at h
  cases hp : s.phase with
  | leaving o => exact ⟨o, .inl rfl⟩
  | releasing o => exact ⟨o, .inr rfl⟩
  | _ => simp [hp] at h

theorem complete_some_answers (s : Sys A) (i j : ℕ) (r : Reply A) :
    (s.complete i (some r)).answers j =
      if j = i then (s.answers i).send r else s.answers j := Function.update_apply ..

theorem dropAnswer_answers (s : Sys A) (i j : ℕ) :
    (s.dropAnswer i).answers j = if j = i then (s.answers i).dropSender else s.answers j :=
  Function.update_apply ..

theorem release_answers (s : Sys A) (o : Exit A) (i : ℕ) :
    (s.release o).answers i =
      if i ∈ s.chan.queue.map Envelope.id then (s.answers i).dropSender else s.answers i := rfl

/-- Whether the loop's future is suspended at an await point. -/
def suspended (s : Sys A) : Bool :=
  match s.phase with
  | .leaving _ => false
  | .releasing _ => false
  | .ended _ => false
  | _ => true

def loopStep (E : Environment A) (s : Sys A) (l : LoopLabel A) : Option (Sys A) :=
  if s.contextBusy then none
  else
    match l, s.phase with
    | .hook w, _ => s.hook E w
    | .recv, .receiving =>
      match E.stream with
      | none => s.receive E
      | some _ => none
    | .select sel, .receiving =>
      match E.stream with
      | none => none
      | some items => some (s.select E items sel)
    | .pollTask w sel, .task i fut => some (s.pollTask E i fut w sel)
    | .pollItem w, .item x fut => some (s.pollItem x fut w)
    | .panic, _ => if s.phase.hasContext then some (s.crash .panicked) else none
    | .drop, _ => if s.suspended then some (s.crash .dropped) else none
    | .notify, .leaving o => if s.dropsContext then none else some (s.notify o)
    | .dropContext, _ => if s.dropsContext then some s.dropContext else none
    | .release, .releasing o => if s.dropsContext then none else some (s.release o)
    | _, _ => none

/-! ### What a loop step can do -/

/-- The await points at which `started` runs, and what is recorded when it
returns `Ok`. -/
inductive Starts (s : Sys A) : List (Event A) → Prop where
  | first (hp : s.phase = .starting) : Starts s []
  | refresh (i : ℕ) (hp : s.phase = .refreshStarting i) : Starts s [.refreshed i]

/-- The mailbox is polled: `es` is what the round recorded before, a stream that
was polled first and not ready. -/
inductive Receives (E : Environment A) (s : Sys A) : List (Event A) → Prop where
  | plain (hp : s.phase = .receiving) : Receives E s []
  | second (hp : s.phase = .receiving) (hs : E.stream ≠ none) : Receives E s [.streamPending]

/-- A step of the event loop and what it records, one constructor for each way it
can go. -/
inductive LoopStep (E : Environment A) (s : Sys A) : Sys A → List (Event A) → Prop where
  | startOk (w : A.World) (es : List (Event A)) (a : A.State) (c : A.Ctx) (u : Unit)
      (hp : s.Starts es) (h : A.started w s.actor s.ctx = (.ok u, a, c)) :
      LoopStep E s
        (({ s with actor := a, ctx := c, phase := .receiving }).record
          (.started w s.incarnation true :: es))
        (.started w s.incarnation true :: es)
  | startErr (w : A.World) (es : List (Event A)) (e : A.Error) (a : A.State) (c : A.Ctx)
      (hp : s.Starts es) (h : A.started w s.actor s.ctx = (.error e, a, c)) :
      LoopStep E s
        (({ s with actor := a, ctx := c, phase := .leaving (.err (.hook e)) }).record
          [.started w s.incarnation false])
        [.started w s.incarnation false]
  | refreshStop (w : A.World) (i : ℕ) (hp : s.phase = .refreshStopping i)
      (hR : E.strategy ≠ .recreateFromDefault) :
      LoopStep E s { s.stoppedHook w with phase := .refreshStarting i }
        [.stopped w s.incarnation (A.stopped w s.actor s.ctx).1]
  | recreate (w : A.World) (i : ℕ) (hp : s.phase = .refreshStopping i)
      (hR : E.strategy = .recreateFromDefault) :
      LoopStep E s { (s.stoppedHook w).recreate with phase := .refreshStarting i }
        [.stopped w s.incarnation (A.stopped w s.actor s.ctx).1, .recreated (s.incarnation + 1)]
  | finishing (w : A.World) (hp : s.phase = .finishing) :
      LoopStep E s { s.finishedHook w with phase := .stopping } [.finished w s.incarnation]
  | stopping (w : A.World) (hp : s.phase = .stopping) :
      LoopStep E s { s.stoppedHook w with phase := .leaving (.ok (A.stopped w s.actor s.ctx).1) }
        [.stopped w s.incarnation (A.stopped w s.actor s.ctx).1]
  | takeTask (es : List (Event A)) (e : Envelope A) (q : List (Envelope A)) (f : TaskFn A)
      (hr : s.Receives E es) (hq : s.chan.queue = e :: q) (hf : e.payload = .task f) :
      LoopStep E s
        (({ s with chan := s.chan.advance, phase := .task e.id f.future }).record
          (es ++ [Event.taken e, Event.begun e.id s.incarnation]))
        (es ++ [Event.taken e, Event.begun e.id s.incarnation])
  | takeStop (es : List (Event A)) (e : Envelope A) (q : List (Envelope A))
      (hr : s.Receives E es) (hq : s.chan.queue = e :: q) (hf : e.payload = .stop) :
      LoopStep E s
        (({ s with chan := s.chan.advance, phase := E.afterLoop }).record (es ++ [Event.taken e]))
        (es ++ [Event.taken e])
  | takeRestart (e : Envelope A) (q : List (Envelope A)) (hp : s.phase = .receiving)
      (hs : E.stream = none) (hq : s.chan.queue = e :: q) (hf : e.payload = .restart)
      (hR : E.strategy ≠ .nonRestartable) :
      LoopStep E s
        (({ s with chan := s.chan.advance, phase := .refreshStopping e.id }).record [.taken e])
        [.taken e]
  | ignoreRestart (e : Envelope A) (q : List (Envelope A)) (hp : s.phase = .receiving)
      (hs : E.stream = none) (hq : s.chan.queue = e :: q) (hf : e.payload = .restart)
      (hR : E.strategy = .nonRestartable) :
      LoopStep E s
        (({ s with chan := s.chan.advance, phase := .receiving }).record
          [.taken e, .refreshed e.id])
        [.taken e, .refreshed e.id]
  | restartPanic (es : List (Event A)) (e : Envelope A) (q : List (Envelope A))
      (hr : s.Receives E es) (hs : E.stream ≠ none) (hq : s.chan.queue = e :: q)
      (hf : e.payload = .restart) :
      LoopStep E s
        (({ s with chan := s.chan.advance, phase := .leaving .panicked }).record
          (es ++ [Event.taken e]))
        (es ++ [Event.taken e])
  | mailboxEnd (es : List (Event A)) (hr : s.Receives E es) (hq : s.chan.queue = [])
      (hc : s.chan.senders = 0) :
      LoopStep E s (({ s with phase := E.afterLoop }).record (es ++ [Event.mailboxEnd]))
        (es ++ [Event.mailboxEnd])
  | takeItem (items : ℕ → Option A.Item) (x : A.Item) (hp : s.phase = .receiving)
      (hs : E.stream = some items) (hx : items s.cursor = some x) :
      LoopStep E s
        (({ s with cursor := s.cursor + 1, phase := .item x (A.handleItem x) }).record
          [.itemTaken x])
        [.itemTaken x]
  | streamEnd (items : ℕ → Option A.Item) (hp : s.phase = .receiving)
      (hs : E.stream = some items) (hx : items s.cursor = none) :
      LoopStep E s (({ s with phase := .finishing }).record [.streamEnd]) [.streamEnd]
  | streamPending (hp : s.phase = .receiving) (hs : E.stream ≠ none) :
      LoopStep E s (s.record [.streamPending]) [.streamPending]
  | taskPending (i : ℕ) (w : A.World) (sel : Select) (fut fut' : TaskFuture A) (a : A.State)
      (c : A.Ctx) (hp : s.phase = .task i fut)
      (h : timeoutFut E.taskTimeout sel w fut s.actor s.ctx = (.pending fut', a, c)) :
      LoopStep E s
        { ({ s with actor := a, ctx := c }).record [.polled w sel fut] with
          phase := .task i fut' }
        [.polled w sel fut]
  | taskDone (i : ℕ) (w : A.World) (sel : Select) (fut : TaskFuture A) (reply : Option (Reply A))
      (a : A.State) (c : A.Ctx) (hp : s.phase = .task i fut)
      (h : timeoutFut E.taskTimeout sel w fut s.actor s.ctx = (.ok reply, a, c)) :
      LoopStep E s
        ((({ s with actor := a, ctx := c }).record [.polled w sel fut]).complete i reply)
        [.polled w sel fut, .completed i reply]
  | taskOverran (i : ℕ) (w : A.World) (sel : Select) (fut : TaskFuture A) (a : A.State)
      (c : A.Ctx) (hp : s.phase = .task i fut)
      (h : timeoutFut E.taskTimeout sel w fut s.actor s.ctx = (.timeout, a, c)) :
      LoopStep E s
        ((({ s with actor := a, ctx := c }).record [.polled w sel fut]).overrun E i)
        [.polled w sel fut, .overran i]
  | itemPending (x : A.Item) (w : A.World) (fut fut' : A.Fut) (a : A.State) (c : A.Ctx)
      (hp : s.phase = .item x fut) (h : A.poll w fut s.actor s.ctx = (.inl fut', a, c)) :
      LoopStep E s
        { ({ s with actor := a, ctx := c }).record [.itemPolled w fut] with
          phase := .item x fut' }
        [.itemPolled w fut]
  | itemDone (x : A.Item) (w : A.World) (fut : A.Fut) (r : A.Response) (a : A.State) (c : A.Ctx)
      (hp : s.phase = .item x fut) (h : A.poll w fut s.actor s.ctx = (.inr r, a, c)) :
      LoopStep E s
        (({ s with actor := a, ctx := c, phase := .receiving }).record
          [.itemPolled w fut, .itemHandled x])
        [.itemPolled w fut, .itemHandled x]
  | crash (o : Exit A) (ho : (o = .panicked ∧ s.phase.hasContext = true) ∨ o = .dropped)
      (hs : s.suspended = true) : LoopStep E s (s.crash o) []
  | notify (o : Exit A) (hp : s.phase = .leaving o) (hd : s.dropsContext = false) :
      LoopStep E s (s.notify o) [.notified]
  | dropContext (hd : s.dropsContext = true) : LoopStep E s s.dropContext []
  | release (o : Exit A) (hp : s.phase = .releasing o) (hd : s.dropsContext = false) :
      LoopStep E s (s.release o) [.released]

theorem LoopStep.trace {E : Environment A} {s t : Sys A} {es : List (Event A)}
    (h : s.LoopStep E t es) : t.trace = s.trace ++ es := by
  cases h with
  | recreate | taskDone | taskOverran => exact List.append_assoc _ _ _
  | crash o =>
    unfold Sys.crash
    split <;> exact (List.append_nil _).symm
  | dropContext => exact (List.append_nil _).symm
  | _ => rfl

/-- What no step of the event loop touches. -/
structure Untouched (s t : Sys A) : Prop where
  arcs : t.arcs = s.arcs
  handles : t.handles = s.handles
  ops : t.ops = s.ops
  senders : t.chan.senders = s.chan.senders
  joinSlot : t.joinSlot = s.joinSlot
  joins : t.joins = s.joins
  output : t.running.output = s.running.output

theorem LoopStep.untouched {E : Environment A} {s t : Sys A} {es : List (Event A)}
    (h : s.LoopStep E t es) : s.Untouched t := by
  cases h with
  | crash o ho hs => unfold Sys.crash; split <;> exact ⟨rfl, rfl, rfl, rfl, rfl, rfl, rfl⟩
  | _ => exact ⟨rfl, rfl, rfl, rfl, rfl, rfl, rfl⟩

theorem LoopStep.exists_of_eq {E : Environment A} {s t t' : Sys A} {es : List (Event A)}
    (h : s.LoopStep E t' es) (ht : t = t') : ∃ es, s.LoopStep E t es := ⟨es, ht ▸ h⟩

theorem startedHook_step {E : Environment A} {s : Sys A} {es : List (Event A)}
    (hp : s.Starts es) (w : A.World) : ∃ es', s.LoopStep E (s.startedHook w es) es' := by
  unfold startedHook
  split
  · next u a c h => exact ⟨_, .startOk w es a c u hp h⟩
  · next e a c h => exact ⟨_, .startErr w es e a c hp h⟩

/-- A round that polls the mailbox, `es` recorded before. -/
theorem receive_step {E : Environment A} {s t : Sys A} {es : List (Event A)}
    (hr : s.Receives E es) (h : (s.record es).receive E = some t) : ∃ es', s.LoopStep E t es' := by
  have hp : s.phase = .receiving := by cases hr <;> assumption
  simp only [receive] at h
  split at h
  · next e hpoll =>
    obtain ⟨q, hq⟩ := Mpsc.pollNext_eq_some.mp hpoll
    cases h
    rw [record_chan] at hq
    rcases hs : E.stream with _ | items
    · have hes : es = [] := by
        cases hr with
        | plain hp => rfl
        | second hp hn => exact absurd hs hn
      subst hes
      rw [onPayload_mailbox hs]
      unfold createLoopMatch
      split
      · next hf =>
        unfold refresh
        rcases hR : E.strategy with _ | _ | _
        · exact (LoopStep.ignoreRestart e q hp hs hq hf hR).exists_of_eq (by simp [record])
        · exact (LoopStep.takeRestart e q hp hs hq hf (by simp [hR])).exists_of_eq
            (by simp [record])
        · exact (LoopStep.takeRestart e q hp hs hq hf (by simp [hR])).exists_of_eq
            (by simp [record])
      · next f hf =>
        exact (LoopStep.takeTask [] e q f hr hq hf).exists_of_eq (by simp [record, beginTask])
      · next hf =>
        exact (LoopStep.takeStop [] e q hr hq hf).exists_of_eq
          (by simp [record, Environment.afterLoop, hs])
    · rw [onPayload_stream hs]
      unfold createLoopOnStreamMatch
      split
      · next f hf =>
        exact (LoopStep.takeTask es e q f hr hq hf).exists_of_eq (by simp [record, beginTask])
      · next hf =>
        exact (LoopStep.takeStop es e q hr hq hf).exists_of_eq
          (by simp [record, Environment.afterLoop, hs])
      · next hf =>
        exact (LoopStep.restartPanic es e q hr (by simp [hs]) hq hf).exists_of_eq (by simp [record])
  · next hpoll =>
    obtain ⟨hq, hc⟩ := Mpsc.pollNext_eq_none.mp hpoll
    cases h
    exact (LoopStep.mailboxEnd es hr hq hc).exists_of_eq (by simp [record])
  · cases h

theorem receiveItem_step {E : Environment A} {s : Sys A} {items : ℕ → Option A.Item}
    (hp : s.phase = .receiving) (hs : E.stream = some items) :
    ∃ es, s.LoopStep E (s.receiveItem items) es := by
  unfold receiveItem
  split
  · next x hx => exact ⟨_, .takeItem items x hp hs hx⟩
  · next hx => exact ⟨_, .streamEnd items hp hs hx⟩

theorem select_step {E : Environment A} {s : Sys A} {items : ℕ → Option A.Item} (sel : Select)
    (hp : s.phase = .receiving) (hs : E.stream = some items) :
    ∃ es, s.LoopStep E (s.select E items sel) es := by
  have hn : E.stream ≠ none := by simp [hs]
  unfold select
  split
  · split
    · exact receiveItem_step hp hs
    · cases h : (s.record [.streamPending]).receive E with
      | none => exact ⟨_, .streamPending hp hn⟩
      | some t => exact receive_step (.second hp hn) h
  · cases h : s.receive E with
    | none =>
      rw [Option.getD_none]
      split
      · exact receiveItem_step hp hs
      · exact ⟨_, .streamPending hp hn⟩
    | some t => exact receive_step (.plain hp) (by simpa [record] using h)

theorem hook_step {E : Environment A} {s t : Sys A} {w : A.World} (h : s.hook E w = some t) :
    ∃ es, s.LoopStep E t es := by
  unfold hook at h
  split at h
  · next hp =>
    cases h
    exact startedHook_step (.first hp) w
  · next i hp =>
    split at h
    · next hR =>
      cases h
      exact ⟨_, .recreate w i hp hR⟩
    · next hR =>
      cases h
      exact ⟨_, .refreshStop w i hp hR⟩
  · next i hp =>
    cases h
    exact startedHook_step (.refresh i hp) w
  · next hp =>
    cases h
    exact ⟨_, .finishing w hp⟩
  · next hp =>
    cases h
    exact ⟨_, .stopping w hp⟩
  · cases h

theorem pollTask_step {E : Environment A} {s : Sys A} {i : ℕ} {fut : TaskFuture A}
    (w : A.World) (sel : Select) (hp : s.phase = .task i fut) :
    ∃ es, s.LoopStep E (s.pollTask E i fut w sel) es := by
  unfold pollTask
  rcases h : timeoutFut E.taskTimeout sel w fut s.actor s.ctx with ⟨_ | _ | _, a, c⟩
  · exact ⟨_, .taskPending i w sel fut _ a c hp h⟩
  · exact ⟨_, .taskDone i w sel fut _ a c hp h⟩
  · exact ⟨_, .taskOverran i w sel fut a c hp h⟩

theorem pollItem_step {E : Environment A} {s : Sys A} {x : A.Item} {fut : A.Fut} (w : A.World)
    (hp : s.phase = .item x fut) : ∃ es, s.LoopStep E (s.pollItem x fut w) es := by
  unfold pollItem
  rcases h : A.poll w fut s.actor s.ctx with ⟨_ | _, a, c⟩
  · exact ⟨_, .itemPending x w fut _ a c hp h⟩
  · exact (LoopStep.itemDone x w fut _ a c hp h).exists_of_eq (by simp [record])

theorem suspended_of_hasContext {s : Sys A} (h : s.phase.hasContext = true) :
    s.suspended = true := by
  cases hp : s.phase <;> simp [hp, Phase.hasContext, suspended] at h ⊢

theorem loopStep_cases {E : Environment A} {s t : Sys A} {l : LoopLabel A}
    (h : s.loopStep E l = some t) : s.contextBusy = false ∧ ∃ es, s.LoopStep E t es := by
  unfold loopStep at h
  split at h
  · cases h
  · next hb =>
    refine ⟨by simpa using hb, ?_⟩
    split at h
    · exact hook_step h
    · next hp =>
      split at h
      · exact receive_step (.plain hp) (by simpa [record] using h)
      · cases h
    · next sel hp =>
      split at h
      · cases h
      · next items hs =>
        cases h
        exact select_step sel hp hs
    · next w sel i fut hp =>
      cases h
      exact pollTask_step w sel hp
    · next w x fut hp =>
      cases h
      exact pollItem_step w hp
    · split at h
      · next hc =>
        cases h
        exact ⟨_, .crash _ (.inl ⟨rfl, hc⟩) (suspended_of_hasContext hc)⟩
      · cases h
    · split at h
      · next hc =>
        cases h
        exact ⟨_, .crash _ (.inr rfl) hc⟩
      · cases h
    · next o hp =>
      split at h
      · cases h
      · next hd =>
        cases h
        exact ⟨_, .notify o hp (by simpa using hd)⟩
    · split at h
      · next hd =>
        cases h
        exact ⟨_, .dropContext hd⟩
      · cases h
    · next o hp =>
      split at h
      · cases h
      · next hd =>
        cases h
        exact ⟨_, .release o hp (by simpa using hd)⟩
    · cases h

end Sys

end Hannibal
