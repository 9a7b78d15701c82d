/-
Building and spawning actors, and which of them can be restarted.

The builders carry the restart strategy in their type: `with_stream` is there
for `NonRestartable` only.  `restart` on an address or a context asks for the
marker trait `RestartableActor` of the actor type.  The two are checked apart
from each other, and an actor type may implement `StreamHandler` and
`RestartableActor` both.

* `restart_taken_iff` — an actor spawned on a stream can come to take a restart,
  on which its loop panics, exactly if its type implements both.
-/
import Hannibal.StreamLoop

namespace Hannibal

/-- An actor type and which of the traits `RestartableActor`, `StreamHandler`
and `Default` it implements. -/
structure ActorType where
  actor : Actor
  restartable : Bool
  streamHandler : Bool
  hasDefault : Bool

/-! ### Builders -/

def EnvironmentConfig.default : EnvironmentConfig := ⟨none, false⟩

structure BaseActorBuilder (A : Actor) where
  actor : A.State
  config : EnvironmentConfig

/-- `channel` is the capacity of `Channel::bounded`, or `none` for
`Channel::unbounded`. -/
structure ActorBuilderWithChannel (A : Actor) (R : RestartStrategy) where
  base : BaseActorBuilder A
  channel : Option ℕ

structure StreamActorBuilder (A : Actor) where
  withChannel : ActorBuilderWithChannel A .nonRestartable
  stream : ℕ → Option A.Item

namespace BaseActorBuilder

variable {A : Actor}

def new (a : A.State) : BaseActorBuilder A := ⟨a, .default⟩

def timeout (b : BaseActorBuilder A) (d : ℕ) : BaseActorBuilder A :=
  { b with config := { b.config with timeout := some d } }

def failOnTimeout (b : BaseActorBuilder A) (fail : Bool) : BaseActorBuilder A :=
  { b with config := { b.config with failOnTimeout := fail } }

def withChannel (b : BaseActorBuilder A) (channel : Option ℕ) :
    ActorBuilderWithChannel A .restartOnly := ⟨b, channel⟩

def bounded (b : BaseActorBuilder A) (capacity : ℕ) : ActorBuilderWithChannel A .restartOnly :=
  b.withChannel (some capacity)

def unbounded (b : BaseActorBuilder A) : ActorBuilderWithChannel A .restartOnly :=
  b.withChannel none

end BaseActorBuilder

namespace ActorBuilderWithChannel

variable {A : Actor} {R : RestartStrategy}

def nonRestartable (b : ActorBuilderWithChannel A R) : ActorBuilderWithChannel A .nonRestartable :=
  ⟨b.base, b.channel⟩

def recreateFromDefault (b : ActorBuilderWithChannel A R) :
    ActorBuilderWithChannel A .recreateFromDefault := ⟨b.base, b.channel⟩

def timeout (b : ActorBuilderWithChannel A R) (d : ℕ) : ActorBuilderWithChannel A R :=
  { b with base := b.base.timeout d }

def failOnTimeout (b : ActorBuilderWithChannel A R) (fail : Bool) :
    ActorBuilderWithChannel A R := { b with base := b.base.failOnTimeout fail }

def withStream (b : ActorBuilderWithChannel A .nonRestartable) (stream : ℕ → Option A.Item) :
    StreamActorBuilder A := ⟨b.nonRestartable, stream⟩

/-- `Environment::<A, R>::from_channel(channel).with_config(config)`, for
`create_loop` -/
def environment (b : ActorBuilderWithChannel A R) : Environment A :=
  ⟨b.channel, b.base.config, R, none⟩

end ActorBuilderWithChannel

namespace BaseActorBuilder

variable {A : Actor}

def boundedOnStream (b : BaseActorBuilder A) (capacity : ℕ) (stream : ℕ → Option A.Item) :
    StreamActorBuilder A := (b.withChannel (some capacity)).nonRestartable.withStream stream

def onStream (b : BaseActorBuilder A) (stream : ℕ → Option A.Item) : StreamActorBuilder A :=
  (b.withChannel none).nonRestartable.withStream stream

end BaseActorBuilder

/-- The environment that `StreamActorBuilder::spawn` makes, for
`create_loop_on_stream`. -/
def StreamActorBuilder.environment {A : Actor} (b : StreamActorBuilder A) : Environment A :=
  { b.withChannel.environment with stream := some b.stream }

/-- The builders with a channel that an actor type allows to make. -/
inductive Built (τ : ActorType) : {R : RestartStrategy} → ActorBuilderWithChannel τ.actor R → Prop
  | bounded (b : BaseActorBuilder τ.actor) (capacity : ℕ) : Built τ (b.bounded capacity)
  | unbounded (b : BaseActorBuilder τ.actor) : Built τ b.unbounded
  | timeout {R : RestartStrategy} (b : ActorBuilderWithChannel τ.actor R) (d : ℕ) (h : Built τ b) :
      Built τ (b.timeout d)
  | failOnTimeout {R : RestartStrategy} (b : ActorBuilderWithChannel τ.actor R) (fail : Bool)
      (h : Built τ b) : Built τ (b.failOnTimeout fail)
  | nonRestartable {R : RestartStrategy} (b : ActorBuilderWithChannel τ.actor R) (h : Built τ b) :
      Built τ b.nonRestartable
  | recreateFromDefault {R : RestartStrategy} (b : ActorBuilderWithChannel τ.actor R)
      (h : Built τ b) (hr : τ.restartable = true) (hd : τ.hasDefault = true) :
      Built τ b.recreateFromDefault

/-! ### Spawning -/

namespace Environment

variable {A : Actor}

/-- `Environment::bounded` and `Environment::unbounded`, with the default
strategy. -/
def ofBuffer (buffer : Option ℕ) : Environment A := ⟨buffer, .default, .restartOnly, none⟩

/-- The same environment, its loop on a stream. -/
def onStream (E : Environment A) (items : ℕ → Option A.Item) : Environment A :=
  { E with stream := some items }

end Environment

/-- The ways of spawning an actor: with what environment and what actor value. -/
inductive SpawnedWith (τ : ActorType) : Environment τ.actor → τ.actor.State → Prop
  | builder {R : RestartStrategy} (b : ActorBuilderWithChannel τ.actor R) (h : Built τ b) :
      SpawnedWith τ b.environment b.base.actor
  | streamBuilder (b : ActorBuilderWithChannel τ.actor .nonRestartable) (h : Built τ b)
      (hs : τ.streamHandler = true) (stream : ℕ → Option τ.actor.Item) :
      SpawnedWith τ (b.withStream stream).environment b.base.actor
  | spawnIn (buffer : Option ℕ) (a : τ.actor.State) : SpawnedWith τ (.ofBuffer buffer) a
  | spawnOnStream (hs : τ.streamHandler = true) (stream : ℕ → Option τ.actor.Item)
      (a : τ.actor.State) : SpawnedWith τ (Environment.onStream (.ofBuffer none) stream) a
  | spawnDefault (hd : τ.hasDefault = true) : SpawnedWith τ (.ofBuffer none) τ.actor.default

/-- `on_stream` and `bounded_on_stream` are short for `with_stream`. -/
theorem onStream_spawned {τ : ActorType} (hs : τ.streamHandler = true)
    (b : BaseActorBuilder τ.actor) (capacity : ℕ) (stream : ℕ → Option τ.actor.Item) :
    SpawnedWith τ (b.onStream stream).environment b.actor ∧
      SpawnedWith τ (b.boundedOnStream capacity stream).environment b.actor :=
  ⟨.streamBuilder _ (.nonRestartable _ (.unbounded b)) hs stream,
    .streamBuilder _ (.nonRestartable _ (.bounded b capacity)) hs stream⟩

/-- The operation asks for a restart. -/
def Method.restarts {A : Actor} : Method A → Bool
  | .restart => true
  | _ => false

/-- The step starts `Addr::restart` or `Context::restart`. -/
def Label.restarts {A : Actor} : Label A → Bool
  | .op (.begin m _) => m.restarts
  | .op (.beginContext m) => m.restarts
  | _ => false

/-- Both need `RestartableActor`. -/
def ActorType.allows (τ : ActorType) (l : Label τ.actor) : Bool := τ.restartable || !l.restarts

/-- What the public operations on an actor of this type can do. -/
def ActorType.runs (τ : ActorType) (E : Environment τ.actor) :
    Machine (Sys τ.actor) (Label τ.actor) := E.system.only τ.allows

/-! ### Runs in which nobody asks for a restart -/

namespace Sys

variable {A : Actor} {s t : Sys A}

/-- Nobody asked for a restart. -/
def Restartless (s : Sys A) : Prop := ∀ o ∈ s.ops, o.method.restarts = false

/-- A new operation is the one of the label. -/
theorem opStep_restartless {l : OpLabel A} (h : s.opStep l = some t) (hs : s.Restartless)
    (hl : (Label.op l).restarts = false) : t.Restartless := by
  intro o' ho'
  rcases opStep_ops h with ⟨o, ht, hlabel⟩ | ⟨k, o, st, ho, -, ht⟩ <;> rw [ht] at ho'
  · rcases List.mem_append.mp ho' with hm | hm
    · exact hs o' hm
    · rw [List.mem_singleton.mp hm]
      rcases hlabel with ⟨i, rfl, -⟩ | ⟨rfl, -⟩ <;> exact hl
  · rcases Table.mem_set_cases ho' with rfl | hm
    · exact hs o (List.mem_of_getElem? ho)
    · exact hs o' hm

theorem Restartless.step {E : Environment A} {l : Label A} (hs : s.Restartless)
    (h : E.step s l = some t) (hl : l.restarts = false) : t.Restartless := by
  by_cases hop : ∃ k, l = .op k
  · obtain ⟨k, rfl⟩ := hop
    exact opStep_restartless h hs hl
  · rw [not_exists] at hop
    rwa [Restartless, Environment.step_ops h hop]

end Sys

/-- What is taken was enqueued by an operation, so without a restart among them
none is taken. -/
theorem Environment.Reachable.none_restarts {A : Actor} {E : Environment A} {a : A.State}
    {c : A.Ctx} {s : Sys A} (h : E.Reachable a c s) (hs : s.Restartless) {e : Envelope A}
    (he : .taken e ∈ s.trace) : e.payload ≠ .restart := by
  have hac : e ∈ accepted s.trace := h.logged.ordered.subset (mem_taken.mpr he)
  obtain ⟨o, ho, hp, -⟩ := h.enqueued.op e hac
  have hm := hs o (List.mem_of_getElem? ho)
  rw [hp]
  cases hk : o.method <;> simp [hk, Method.restarts, Method.payload] at hm ⊢

theorem Environment.restartless_of_run {A : Actor} {E : Environment A} {a : A.State} {c : A.Ctx}
    {s : Sys A} (h : (E.system.only fun l => !l.restarts).Reaches (E.init a c) s) :
    s.Restartless := by
  refine Machine.invariant (P := Sys.Restartless) (fun u l v hu hst => ?_) ?_ h
  · obtain ⟨hl, hst⟩ := Machine.only_step.mp hst
    exact hu.step hst (by simpa using hl)
  · intro o ho
    cases ho

/-! ### The restart panic -/

/-- Where `started` never returns `Ok` the loop never gets to its mailbox. -/
theorem Environment.Reachable.not_started {A : Actor} {E : Environment A} {a : A.State} {c : A.Ctx}
    {s : Sys A} (h : E.Reachable a c s) (hno : ∀ w a c u, (A.started w a c).1 ≠ .ok u) :
    (s.phase = .starting ∨ s.phase.looping = false) ∧ taken s.trace = [] := by
  refine reachable_induction (P := fun s : Sys A =>
    (s.phase = .starting ∨ s.phase.looping = false) ∧ taken s.trace = []) ⟨.inl rfl, rfl⟩
    (fun s t es _ _ hs hst => ?_) h
  obtain ⟨hp, htk⟩ := hs
  have hidle : ∀ p : Phase A, s.phase = p → p.looping = true → p = .starting := by
    rintro p rfl hl
    rcases hp with hp | hp
    · exact hp
    · rw [hl] at hp
      cases hp
  rcases hst.outside with ⟨ho, -⟩ | ⟨-, hl⟩
  · rw [ho.phase, ho.trace, taken_append, htk]
    exact ⟨hp, taken_eq_nil fun e he => ho.source _ he rfl⟩
  · rw [hl.trace, taken_append, htk]
    cases hl with
    | startOk w es a c u hp h => exact absurd (congrArg Prod.fst h) (hno _ _ _ _)
    | startErr w es e a c hp h => exact ⟨.inr rfl, rfl⟩
    | finishing w hp | stopping w hp => exact ⟨.inr rfl, rfl⟩
    | notify o hp | release o hp => exact ⟨.inr rfl, rfl⟩
    | dropContext => exact ⟨hp, rfl⟩
    | crash o ho hsus =>
      unfold Sys.crash
      split <;> exact ⟨.inr rfl, rfl⟩
    | refreshStop w i hp | recreate w i hp => cases hidle _ hp rfl
    | takeTask es e q f hr | takeStop es e q hr | restartPanic es e q hr | mailboxEnd es hr =>
      cases hidle _ hr.events.1 rfl
    | takeRestart e q hp | ignoreRestart e q hp | takeItem items x hp | streamEnd items hp
    | streamPending hp => cases hidle _ hp rfl
    | taskPending i w sel fut fut' a c hp | taskDone i w sel fut reply a c hp
    | taskOverran i w sel fut a c hp | itemPending x w fut fut' a c hp
    | itemDone x w fut r a c hp => cases hidle _ hp rfl

/-- The stream loop starts, is asked to restart and takes the request. -/
def restartRun (A : Actor) (w : A.World) : List (Label A) :=
  [.loop (.hook w), .op (.begin .restart 0), .op (.push 0), .loop (.select ⟨false, false⟩)]

theorem restart_taken {τ : ActorType} (hr : τ.restartable = true) {w : τ.actor.World}
    {a : τ.actor.State} {c : τ.actor.Ctx} {u : Unit} (hst : (τ.actor.started w a c).1 = .ok u)
    (items : ℕ → Option τ.actor.Item) :
    ∃ s, (τ.runs (Environment.onStream (.ofBuffer none) items)).run
        ((Environment.onStream (.ofBuffer none) items).init a c) (restartRun τ.actor w) = some s ∧
      s.phase = .leaving .panicked ∧ .taken ⟨0, .restart⟩ ∈ s.trace := by
  set E : Environment τ.actor := Environment.onStream (.ofBuffer none) items with hE
  have hall : ∀ l ∈ restartRun τ.actor w, τ.allows l = true := by simp [ActorType.allows, hr]
  let t : Sys τ.actor := ({ E.init a c with
    actor := (τ.actor.started w a c).2.1
    ctx := (τ.actor.started w a c).2.2
    phase := .receiving } : Sys τ.actor).record [.started w 0 true]
  have hhook : E.system.step (E.init a c) (.loop (.hook w)) = some t := by
    show some ((E.init a c).startedHook w []) = _
    rw [Sys.startedHook]
    rcases h : τ.actor.started w a c with ⟨_ | _, a', c'⟩
    · rw [h] at hst
      cases hst
    · simp only [t, show (E.init a c).actor = a from rfl, show (E.init a c).ctx = c from rfl, h]
      rfl
  obtain ⟨s, hs, hp, hm⟩ : ∃ s, E.system.run t (restartRun τ.actor w).tail = some s ∧
      s.phase = .leaving .panicked ∧ .taken ⟨0, .restart⟩ ∈ s.trace :=
    ⟨_, rfl, rfl, List.mem_of_getElem? (i := 4) rfl⟩
  refine ⟨s, ?_, hp, hm⟩
  rw [ActorType.runs, Machine.only_run hall]
  exact Machine.run_cons.mpr ⟨t, hhook, hs⟩

/-- No run of the actor, however it is spawned, lets a stream loop take a
restart. -/
def ActorType.RestartUnreachable (τ : ActorType) : Prop :=
  ∀ E a, SpawnedWith τ E a → E.stream ≠ none → ∀ (c : τ.actor.Ctx) (s : Sys τ.actor),
    (τ.runs E).Reaches (E.init a c) s → ∀ e, .taken e ∈ s.trace → e.payload ≠ .restart

theorem SpawnedWith.streamHandler {τ : ActorType} {E : Environment τ.actor} {a : τ.actor.State}
    (h : SpawnedWith τ E a) (hs : E.stream ≠ none) : τ.streamHandler = true := by
  cases h with
  | streamBuilder b h hsh | spawnOnStream hsh => exact hsh
  | builder b h | spawnIn buffer | spawnDefault hd => exact absurd rfl hs

/-- **The restart panic.**  It is out of reach exactly for the actor types that do
not implement `StreamHandler` and `RestartableActor` both, and those that never
start; and in any run it takes somebody who asks for a restart. -/
theorem restart_taken_iff (τ : ActorType) :
    (τ.RestartUnreachable ↔ ¬ (τ.restartable = true ∧ τ.streamHandler = true ∧
      ∃ w a c u, (τ.actor.started w a c).1 = .ok u)) ∧
    ∀ (E : Environment τ.actor) (a : τ.actor.State) (c : τ.actor.Ctx) (s : Sys τ.actor),
      (E.system.only fun l => !l.restarts).Reaches (E.init a c) s →
        ∀ e, .taken e ∈ s.trace → e.payload ≠ .restart := by
  refine ⟨⟨?_, ?_⟩, fun E a c s h e => ?_⟩
  · rintro h ⟨hr, hs, w, a, c, u, hst⟩
    obtain ⟨s, hrun, -, hm⟩ := restart_taken hr hst (fun _ => none)
    exact h _ a (.spawnOnStream hs _ a) nofun c s ⟨_, hrun⟩ _ hm rfl
  · intro h E a hsp hs c s hrun e he
    have hreach : E.Reachable a c s := hrun.of_only
    by_cases hr : τ.restartable = true
    · -- then `started` never returns `Ok`
      have hno : ∀ w a c u, (τ.actor.started w a c).1 ≠ .ok u := fun w a c u hok =>
        h ⟨hr, hsp.streamHandler hs, w, a, c, u, hok⟩
      have hnone := (hreach.not_started hno).2
      rw [← mem_taken, hnone] at he
      cases he
    · -- then nobody can ask for a restart
      have hp : τ.allows = fun l => !l.restarts := by
        funext l
        simp [ActorType.allows, hr]
      rw [ActorType.runs, hp] at hrun
      exact hreach.none_restarts (Environment.restartless_of_run hrun) he
  · exact Environment.Reachable.none_restarts (E := E) (Machine.Reaches.of_only h)
      (Environment.restartless_of_run h)

/-- The tally as a type that implements all three traits. -/
def Tally.both : ActorType := ⟨tally, true, true, true⟩

/-- Its restart is taken by the stream loop, which panics. -/
theorem not_restartUnreachable : ¬ Tally.both.RestartUnreachable := by
  intro h
  -- `bounded_on_stream`, with a capacity of 10
  have hspawned := (onStream_spawned (τ := Tally.both) rfl (.new (0 : ℕ)) 10 fun _ => none).2
  have hno := h _ _ hspawned nofun (0 : ℕ) _ ⟨restartRun tally true, rfl⟩ ⟨0, .restart⟩
    (List.mem_of_getElem? (i := 4) rfl)
  exact hno rfl

end Hannibal
