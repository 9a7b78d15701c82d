/-
The timers and children of a context.

A `Behaviour` is an actor that says for each of its hooks, and for each poll of its
handlers, which functions of its `Context` it calls.  That is all it can do to the
context's timers and children, whose fields are private to the crate.

* `Context.performAll_tasks`, `Context.performAll_children` — what a list of calls
  leaves in a context;
* `Reachable.context_eq` — what the context holds is what was registered since the
  spawn;
* `restart_keeps_context` — a refresh drops nothing of it, whatever the strategy, and
  the end of the loop's future drops it all.
-/
import Hannibal.Replay

namespace Hannibal

/-! ### The context -/

/-- context.rs: the three futures that `spawn_task` is called with. -/
inductive TimerKind where
  | interval
  | intervalWith
  | delayedSend
  deriving DecidableEq, Repr

/-- A spawned timer: what its future was made of, and its `AbortHandle`.
`messageFn n` is what the `n`-th call of the message function returns. -/
structure TimerTask (M : Type) where
  kind : TimerKind
  messageFn : ℕ → M
  duration : ℕ
  aborted : Bool

def TimerTask.abort {M : Type} (x : TimerTask M) : TimerTask M := { x with aborted := true }

/-- context.rs; a child is named by the context id of the sender that is kept. -/
structure Context (M : Type) where
  children : List ℕ
  tasks : List (TimerTask M)

/-- One call of a function that takes `&mut Context`.  `createChild` is given the
context id of the child it spawns. -/
inductive ContextCall (M : Type) where
  | interval (message : M) (duration : ℕ)
  | intervalWith (messageFn : ℕ → M) (duration : ℕ)
  | delayedSend (messageFn : ℕ → M) (duration : ℕ)
  | addChild (child : ℕ)
  | createChild (child : ℕ)

namespace Context

variable {M : Type}

/-- The context that `Environment::from_channel` makes. -/
def new : Context M := ⟨[], []⟩

def spawnTask (c : Context M) (k : TimerKind) (f : ℕ → M) (d : ℕ) : Context M :=
  { c with tasks := c.tasks ++ [⟨k, f, d, false⟩] }

def interval (c : Context M) (m : M) (d : ℕ) : Context M := c.spawnTask .interval (fun _ => m) d

def intervalWith (c : Context M) (f : ℕ → M) (d : ℕ) : Context M := c.spawnTask .intervalWith f d

def delayedSend (c : Context M) (f : ℕ → M) (d : ℕ) : Context M := c.spawnTask .delayedSend f d

def addChild (c : Context M) (x : ℕ) : Context M := { c with children := c.children ++ [x] }

def createChild (c : Context M) (x : ℕ) : Context M := c.addChild x

/-- `Drop for Context`: every timer is aborted, then the children's senders are
released. -/
def drop (c : Context M) : Context M := ⟨[], c.tasks.map TimerTask.abort⟩

def perform (c : Context M) : ContextCall M → Context M
  | .interval m d => c.interval m d
  | .intervalWith f d => c.intervalWith f d
  | .delayedSend f d => c.delayedSend f d
  | .addChild x => c.addChild x
  | .createChild x => c.createChild x

def performAll (c : Context M) (l : List (ContextCall M)) : Context M := l.foldl perform c

/-- The timers that are not aborted. -/
def live (c : Context M) : List (TimerTask M) := c.tasks.filter fun x => !x.aborted

end Context

namespace ContextCall

variable {M : Type}

/-- The timers a call spawns. -/
def tasks : ContextCall M → List (TimerTask M)
  | .interval m d => [⟨.interval, fun _ => m, d, false⟩]
  | .intervalWith f d => [⟨.intervalWith, f, d, false⟩]
  | .delayedSend f d => [⟨.delayedSend, f, d, false⟩]
  | .addChild _ => []
  | .createChild _ => []

/-- The children a call adds. -/
def children : ContextCall M → List ℕ
  | .interval _ _ => []
  | .intervalWith _ _ => []
  | .delayedSend _ _ => []
  | .addChild x => [x]
  | .createChild x => [x]

theorem not_aborted {l : List (ContextCall M)} {x : TimerTask M} (h : x ∈ l.flatMap tasks) :
    x.aborted = false := by
  obtain ⟨call, -, hx⟩ := List.mem_flatMap.mp h
  cases call <;> simp [tasks] at hx <;> rw [hx]

end ContextCall

namespace Context

variable {M : Type}

theorem perform_tasks (c : Context M) (x : ContextCall M) :
    (c.perform x).tasks = c.tasks ++ x.tasks := by
  cases x <;> simp [perform, ContextCall.tasks, interval, intervalWith, delayedSend, spawnTask,
    addChild, createChild]

theorem perform_children (c : Context M) (x : ContextCall M) :
    (c.perform x).children = c.children ++ x.children := by
  cases x <;> simp [perform, ContextCall.children, interval, intervalWith, delayedSend, spawnTask,
    addChild, createChild]

theorem performAll_tasks (c : Context M) (l : List (ContextCall M)) :
    (c.performAll l).tasks = c.tasks ++ l.flatMap ContextCall.tasks := by
  induction l generalizing c with
  | nil => exact (List.append_nil _).symm
  | cons x l ih =>
    show ((c.perform x).performAll l).tasks = _
    rw [ih, perform_tasks, List.flatMap_cons, List.append_assoc]

theorem performAll_children (c : Context M) (l : List (ContextCall M)) :
    (c.performAll l).children = c.children ++ l.flatMap ContextCall.children := by
  induction l generalizing c with
  | nil => exact (List.append_nil _).symm
  | cons x l ih =>
    show ((c.perform x).performAll l).children = _
    rw [ih, perform_children, List.flatMap_cons, List.append_assoc]

theorem performAll_append (c : Context M) (l l' : List (ContextCall M)) :
    c.performAll (l ++ l') = (c.performAll l).performAll l' := List.foldl_append

/-- No call aborts anything: the timers that calls leave in a fresh context are all
live. -/
theorem live_performAll (l : List (ContextCall M)) :
    (new.performAll l).live = l.flatMap ContextCall.tasks := by
  rw [live, performAll_tasks, show (new : Context M).tasks = [] from rfl, List.nil_append]
  refine List.filter_eq_self.mpr fun x hx => ?_
  rw [ContextCall.not_aborted hx]
  rfl

theorem live_drop (c : Context M) : c.drop.live = [] := by
  refine List.filter_eq_nil_iff.mpr fun x hx => ?_
  obtain ⟨y, -, rfl⟩ := List.mem_map.mp hx
  simp [TimerTask.abort]

end Context

/-- The context after one poll of `timeout_fut`: the delay does not touch it. -/
theorem timeoutFut_ctx {A : Actor} (timeout : Option ℕ) (sel : Select) (w : A.World)
    (fut : TaskFuture A) (a : A.State) (c : A.Ctx) :
    (timeoutFut timeout sel w fut a c).2.2 =
      if timeout.isSome && sel.otherFirst && sel.otherReady then c else (fut.poll w a c).2.2 := by
  unfold timeoutFut
  rcases fut.poll w a c with ⟨fut' | reply, a', c'⟩ <;> cases timeout <;> simp <;>
    by_cases hr : sel.otherReady = true <;> by_cases hf : sel.otherFirst = true <;> simp [hr, hf]

/-! ### Behaviours -/

/-- An actor by what its hooks and handlers make of its value and which functions of
its context they call. -/
structure Behaviour where
  State : Type
  Error : Type
  Message : Type
  Response : Type
  Item : Type
  Fut : Type
  World : Type
  default : State
  started : World → State → Except Error Unit × State × List (ContextCall Message)
  stopped : World → State → State × List (ContextCall Message)
  finished : World → State → State × List (ContextCall Message)
  handle : Message → Fut
  handleItem : Item → Fut
  poll : World → Fut → State → (Fut ⊕ Response) × State × List (ContextCall Message)

namespace Behaviour

@[reducible] def actor (B : Behaviour) : Actor where
  State := B.State
  Ctx := Context B.Message
  Error := B.Error
  Message := B.Message
  Response := B.Response
  Item := B.Item
  Fut := B.Fut
  World := B.World
  default := B.default
  started w a c := ((B.started w a).1, (B.started w a).2.1, c.performAll (B.started w a).2.2)
  stopped w a c := ((B.stopped w a).1, c.performAll (B.stopped w a).2)
  finished w a c := ((B.finished w a).1, c.performAll (B.finished w a).2)
  handle := B.handle
  handleItem := B.handleItem
  poll w fut a c := ((B.poll w fut a).1, (B.poll w fut a).2.1, c.performAll (B.poll w fut a).2.2)

variable {B : Behaviour}

/-- The calls made while the task's future is polled under `timeout_fut`: none where
the delay is polled first and already over. -/
def taskCalls (timeout : Option ℕ) (sel : Select) (w : B.World) (fut : TaskFuture B.actor)
    (a : B.State) : List (ContextCall B.Message) :=
  if timeout.isSome && sel.otherFirst && sel.otherReady then []
  else
    match fut with
    | .handling fut _ => (B.poll w fut a).2.2
    | .ping => []

/-- The calls made in one recorded event. -/
def called (E : Environment B.actor) (k : Core B.actor) :
    Event B.actor → List (ContextCall B.Message)
  | .started w _ _ => (B.started w k.actor).2.2
  | .stopped w _ _ => (B.stopped w k.actor).2
  | .finished w _ => (B.finished w k.actor).2
  | .polled w sel _ =>
    match k.fut with
    | some (.inl fut) => taskCalls E.taskTimeout sel w fut k.actor
    | _ => []
  | .itemPolled w _ =>
    match k.fut with
    | some (.inr fut) => (B.poll w fut k.actor).2.2
    | _ => []
  | _ => []

/-- The calls made along a history. -/
def registered (E : Environment B.actor) : Core B.actor → List (Event B.actor) →
    List (ContextCall B.Message)
  | _, [] => []
  | k, ev :: t => called E k ev ++ registered E (k.feed E ev) t

theorem registered_append (E : Environment B.actor) (k : Core B.actor)
    (t u : List (Event B.actor)) :
    registered E k (t ++ u) = registered E k t ++ registered E (replay E k t) u := by
  induction t generalizing k with
  | nil => rfl
  | cons ev t ih =>
    rw [List.cons_append, registered, ih, registered, List.append_assoc]
    rfl

theorem poll_ctx (w : B.World) (fut : TaskFuture B.actor) (a : B.State) (c : Context B.Message) :
    (fut.poll w a c).2.2 = c.performAll (taskCalls none ⟨false, false⟩ w fut a) := by
  cases fut with
  | ping => rfl
  | handling fut responds =>
    show _ = c.performAll (B.poll w fut a).2.2
    simp only [TaskFuture.poll]
    rcases B.poll w fut a with ⟨fut' | r, a', l⟩ <;> rfl

theorem timeoutFut_calls (timeout : Option ℕ) (sel : Select) (w : B.World)
    (fut : TaskFuture B.actor) (a : B.State) (c : Context B.Message) :
    (timeoutFut timeout sel w fut a c).2.2 = c.performAll (taskCalls timeout sel w fut a) := by
  rw [timeoutFut_ctx, poll_ctx]
  by_cases hb : (timeout.isSome && sel.otherFirst && sel.otherReady) = true
  · simp [taskCalls, hb, Context.performAll]
  · simp [taskCalls, hb]

/-- One event does to the context what its calls do. -/
theorem feed_ctx (E : Environment B.actor) (k : Core B.actor) (ev : Event B.actor) :
    (k.feed E ev).ctx = Context.performAll k.ctx (called E k ev) := by
  cases ev with
  | taken e =>
    obtain ⟨i, f | _ | _⟩ := e <;> rfl
  | polled w sel fut =>
    obtain ⟨a, c, _ | fut' | fut'⟩ := k
    · rfl
    · have h := timeoutFut_calls E.taskTimeout sel w fut' a c
      show (Core.feed E ⟨a, c, some (.inl fut')⟩ (.polled w sel fut)).ctx =
        Context.performAll c (taskCalls E.taskTimeout sel w fut' a)
      rw [← h]
      simp only [Core.feed]
      rcases timeoutFut E.taskTimeout sel w fut' a c with ⟨_ | _ | _, a', c'⟩ <;> rfl
    · rfl
  | itemPolled w fut =>
    obtain ⟨a, c, _ | fut' | fut'⟩ := k
    · rfl
    · rfl
    · show (Core.feed E ⟨a, c, some (.inr fut')⟩ (.itemPolled w fut)).ctx =
        Context.performAll c (B.poll w fut' a).2.2
      simp only [Core.feed]
      rcases B.poll w fut' a with ⟨_ | _, a', l⟩ <;> rfl
  | _ => rfl

theorem replay_ctx (E : Environment B.actor) (k : Core B.actor) (t : List (Event B.actor)) :
    (replay E k t).ctx = Context.performAll k.ctx (registered E k t) := by
  induction t generalizing k with
  | nil => rfl
  | cons ev t ih =>
    show (replay E (k.feed E ev) t).ctx = _
    rw [ih, feed_ctx, registered, Context.performAll_append]

end Behaviour

/-! ### What a restart leaves behind -/

open Behaviour (registered)

variable {B : Behaviour}

/-- The context as the outside finds it, before and behind its `drop`. -/
def Sys.context (s : Sys B.actor) : Context B.Message :=
  if s.ctxDropped then Context.drop s.ctx else s.ctx

/-- How often the `started` hook ran. -/
def starts (t : List (Event B.actor)) : ℕ :=
  t.countP fun ev => match ev with
    | .started _ _ _ => true
    | _ => false

/-- What every `started` hook registers counts as often as the hook ran. -/
theorem starts_le_registered {γ : Type} {f : ContextCall B.Message → List γ} {n : ℕ}
    (hn : ∀ w a, n ≤ ((B.started w a).2.2.flatMap f).length) (E : Environment B.actor)
    (k : Core B.actor) (t : List (Event B.actor)) :
    n * starts t ≤ ((registered E k t).flatMap f).length := by
  induction t generalizing k with
  | nil => exact Nat.zero_le _
  | cons ev t ih =>
    have htail := ih (k.feed E ev)
    rw [registered, List.flatMap_append, List.length_append]
    by_cases hev : ∃ w m b, ev = .started w m b
    · obtain ⟨w, m, b, rfl⟩ := hev
      have hhead := hn w k.actor
      rw [starts, List.countP_cons_of_pos rfl, Nat.mul_succ]
      exact (Nat.add_comm _ _).le.trans (Nat.add_le_add hhead htail)
    · rw [starts, List.countP_cons_of_neg]
      · exact htail.trans (Nat.le_add_left _ _)
      · cases ev <;> simp at hev ⊢

namespace Environment.Reachable

variable {E : Environment B.actor} {a : B.State} {s : Sys B.actor}

/-- What the context holds is what was registered since the spawn. -/
theorem context_eq (h : E.Reachable a Context.new s) :
    s.ctx = Context.new.performAll (registered E ⟨a, Context.new, none⟩ s.trace) :=
  h.replayed.ctx.symm.trans (Behaviour.replay_ctx E _ _)

end Environment.Reachable

/-- **A restart leaves everything running.**  Whatever the strategy, the timers that are not
aborted and the children of a context are those registered before any point of the run, such
as the stopped hook of a refresh, and those registered since; only the drop of the context on
the way out of the loop's future drops them.  So there are at least as many of them as the
`started` hooks that ran have registered. -/
theorem restart_keeps_context {E : Environment B.actor} {a : B.State} {s : Sys B.actor}
    (h : E.Reachable a Context.new s) :
    (∀ t u, s.trace = t ++ u → s.ctxDropped = false →
      s.context.live = (registered E ⟨a, Context.new, none⟩ t).flatMap ContextCall.tasks ++
        (registered E (replay E ⟨a, Context.new, none⟩ t) u).flatMap ContextCall.tasks ∧
      s.context.children = (registered E ⟨a, Context.new, none⟩ t).flatMap ContextCall.children ++
        (registered E (replay E ⟨a, Context.new, none⟩ t) u).flatMap ContextCall.children) ∧
    (s.ctxDropped = true →
      (∃ o, s.phase.exit? = some o) ∧ s.context.live = [] ∧ s.context.children = []) ∧
    (∀ o, s.phase = .ended o → s.ctxDropped = true) ∧
    (∀ n, s.ctxDropped = false →
      ((∀ w b, n ≤ ((B.started w b).2.2.flatMap ContextCall.tasks).length) →
        n * starts s.trace ≤ s.context.live.length) ∧
      ((∀ w b, n ≤ ((B.started w b).2.2.flatMap ContextCall.children).length) →
        n * starts s.trace ≤ s.context.children.length)) := by
  have hctx := h.context_eq
  have hopen : s.ctxDropped = false → s.context = s.ctx := by
    intro ho
    rw [Sys.context, ho]
    rfl
  have hlive : s.ctxDropped = false → s.context.live =
      (registered E ⟨a, Context.new, none⟩ s.trace).flatMap ContextCall.tasks := by
    intro ho
    rw [hopen ho, hctx, Context.live_performAll]
  have hchildren : s.ctxDropped = false → s.context.children =
      (registered E ⟨a, Context.new, none⟩ s.trace).flatMap ContextCall.children := by
    intro ho
    rw [hopen ho, hctx, Context.performAll_children]
    rfl
  refine ⟨fun t u ht ho => ?_, fun hd => ⟨h.unwinds.leaves hd, ?_⟩, h.unwinds.ended,
    fun n ho => ⟨fun hn => ?_, fun hn => ?_⟩⟩
  · rw [hlive ho, hchildren ho, ht, Behaviour.registered_append, List.flatMap_append,
      List.flatMap_append]
    exact ⟨rfl, rfl⟩
  · have hdrop : s.context = Context.drop s.ctx := by rw [Sys.context, if_pos hd]
    rw [hdrop]
    exact ⟨Context.live_drop _, rfl⟩
  · rw [hlive ho]
    exact starts_le_registered hn E _ _
  · rw [hchildren ho]
    exact starts_le_registered hn E _ _

/-- A completed refresh leaves at most the timers and children that were registered
since its stopped hook. -/
def LeavesNothing (E : Environment B.actor) : Prop :=
  ∀ a s t u w n v i, E.Reachable a Context.new s →
    s.trace = t ++ .stopped w n v :: (u ++ [.refreshed i]) →
    (∀ w' n' v', .stopped w' n' v' ∉ u) →
    s.context.live.Sublist ((registered E (replay E ⟨a, Context.new, none⟩ t)
      (.stopped w n v :: u)).flatMap ContextCall.tasks) ∧
    s.context.children.Sublist ((registered E (replay E ⟨a, Context.new, none⟩ t)
      (.stopped w n v :: u)).flatMap ContextCall.children)

/-! ### An actor with an interval and a child -/

/-- Counts the ticks of an interval that its `started` hook registers, and has a
child. -/
def chime : Behaviour where
  State := ℕ
  Error := Unit
  Message := Unit
  Response := Unit
  Item := Unit
  Fut := Unit
  World := Unit
  default := 0
  started _ a := (.ok (), a, [.interval () 1, .createChild 7])
  stopped _ a := (a, [])
  finished _ a := (a, [])
  handle m := m
  handleItem x := x
  poll _ _ a := (.inr (), a + 1, [])

namespace Chime

def env (R : RestartStrategy) : Environment chime.actor := ⟨none, ⟨none, false⟩, R, none⟩

/-- The actor starts, is told to restart and refreshes. -/
def restarted : List (Label chime.actor) :=
  [.loop (.hook ()), .op (.begin .restart 0), .op (.push 0), .loop .recv, .loop (.hook ()),
    .loop (.hook ())]

end Chime

theorem restart_keeps_context_of_refresh :
    ∃ s, (Chime.env .restartOnly).system.run ((Chime.env .restartOnly).init (0 : ℕ) Context.new)
        Chime.restarted = some s ∧ 1 * starts s.trace ≤ s.context.live.length :=
  ⟨_, rfl, ((restart_keeps_context (E := Chime.env .restartOnly) (a := (0 : ℕ))
    ⟨Chime.restarted, rfl⟩).2.2.2 1 rfl).1 fun _ _ => Nat.le_refl 1⟩

/-- After its first refresh the actor has two intervals and two children. -/
theorem not_leaves_nothing : ¬ LeavesNothing (Chime.env .restartOnly) ∧
    ¬ LeavesNothing (Chime.env .recreateFromDefault) := by
  constructor
  · intro h
    have hsub := (h (0 : ℕ) _ [.started () 0 true, .began 0, .accepted ⟨0, .restart⟩,
      .returned 0 (.ok none), .taken ⟨0, .restart⟩] [.started () 0 true] () 0 (0 : ℕ) 0
      ⟨Chime.restarted, rfl⟩ rfl (by simp)).1
    exact absurd hsub.length_le (by decide)
  · intro h
    have hsub := (h (0 : ℕ) _ [.started () 0 true, .began 0, .accepted ⟨0, .restart⟩,
      .returned 0 (.ok none), .taken ⟨0, .restart⟩] [.recreated 1, .started () 1 true] () 0 (0 : ℕ)
      0 ⟨Chime.restarted, rfl⟩ rfl (by simp)).1
    exact absurd hsub.length_le (by decide)

end Hannibal
