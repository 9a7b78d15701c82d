/-
The service registry.

The registry maps service types to type-erased addresses behind an async
`RwLock`.  An operation takes the write lock and looks at the map (`enter`),
and only then writes it (`commit`); actors take steps in between.  An operation
that writes nothing returns where it looks.

The actors are the systems of `Environment.system`, each with its own handles.
The map owns the handles of its addresses, so nobody else awaits or drops them.
-/
import Hannibal.Actors

namespace Hannibal

/-- An `Addr` of the actor `id`, one of its handles, as it lies in an `AnyBox`. -/
structure Boxed (T : Type) where
  type : T
  id : ℕ
  handle : ℕ
  deriving DecidableEq, Repr

inductive RegistryOp (T : Type) where
  | register (self : Boxed T)
  | replace (self : Boxed T)
  | unregister (t : T)
  | fromRegistry (t : T)
  deriving DecidableEq, Repr

/-- What an operation does with what it saw. -/
inductive Decision (T : Type) where
  | insert
  | refuse
  | remove
  | hand (b : Boxed T)
  | spawn
  deriving DecidableEq, Repr

inductive RegistryEvent (T : Type) where
  | refused (self : Boxed T)
  | registered (new : Boxed T) (old : Option (Boxed T))
  | replaced (new : Boxed T) (old : Option (Boxed T))
  | unregistered (t : T) (old : Option (Boxed T))
  | spawned (new : Boxed T)
  | handed (t : T) (i : ℕ)
  | tried (t : T) (i : Option ℕ)
  | ended (i : ℕ)
  deriving DecidableEq, Repr

/-- The address that a caller of `replace` or `unregister` got back. -/
def RegistryEvent.returned {T : Type} : RegistryEvent T → Option (Boxed T)
  | .replaced _ old => old
  | .unregistered _ old => old
  | _ => none

/-- The registry, all actors, and the operation that holds the write lock. -/
structure Registry {T : Type} (S : Program T) where
  actors : List (Spawned S)
  map : T → Option (Boxed T)
  lock : Option (RegistryOp T)
  trace : List (RegistryEvent T)

inductive RegistryLabel {T : Type} (S : Program T) where
  | spawn (t : T) (E : Environment (S.actor t)) (a : (S.actor t).State) (c : (S.actor t).Ctx)
  | actor (i : ℕ) (t : T) (l : Label (S.actor t))
  | enter (op : RegistryOp T)
  | commit
  | tryFromRegistry (t : T)

namespace RegistryOp

variable {T : Type}

/-- `TypeId::of::<A>()` -/
def key : RegistryOp T → T
  | .register self => self.type
  | .replace self => self.type
  | .unregister t => t
  | .fromRegistry t => t

/-- The `Addr` that was moved into the operation. -/
def self? : RegistryOp T → Option (Boxed T)
  | .register self => some self
  | .replace self => some self
  | _ => none

/-- `replace` and `unregister` take the entry whatever it is. -/
def overrides : RegistryOp T → Bool
  | .register _ => false
  | .replace _ => true
  | .unregister _ => true
  | .fromRegistry _ => false

end RegistryOp

namespace Spawned

variable {T : Type} {S : Program T}

/-- What `Service::from_registry` spawns, `Environment::unbounded()` and
`A::default()`; `create_loop` returns the one `Addr`. -/
def service (S : Program T) (t : T) : Spawned S :=
  let E : Environment (S.actor t) := ⟨none, ⟨none, false⟩, .restartOnly, none⟩
  (⟨t, E, E.init (S.actor t).default (S.ctx t)⟩ : Spawned S)
    |>.onHandle (.derive 0 .addr) |>.onHandle (.drop 0)

end Spawned

namespace Registry

variable {T : Type} [DecidableEq T] {S : Program T}

/-- Nothing was spawned, nothing registered. -/
def init (S : Program T) : Registry S := ⟨[], fun _ => none, none, []⟩

def record (r : Registry S) (es : List (RegistryEvent T)) : Registry S :=
  { r with trace := r.trace ++ es }

/-- A step of a handle of the actor `i`. -/
def onHandle (r : Registry S) (i : ℕ) (l : HandleLabel) : Registry S :=
  { r with actors := r.actors.modify i (·.onHandle l) }

/-- Whether the event loop of the actor `i` has ended. -/
def hasEnded (r : Registry S) (i : ℕ) : Bool :=
  match r.actors[i]? with
  | some x => x.sys.hasEnded
  | none => false

/-- The `Addr` is one that somebody holds. -/
def holds (r : Registry S) (b : Boxed T) : Bool :=
  match r.actors[b.id]? with
  | some x =>
    match x.sys.handle? b.handle with
    | some hd => x.type = b.type && hd.kind = .addr
    | none => false
  | none => false

/-- `self.running.peek()` -/
def peek (r : Registry S) (b : Boxed T) : Option (Except Canceled Unit) :=
  match r.actors[b.id]? with
  | some x =>
    match x.sys.handle? b.handle with
    | some hd => x.sys.running.peek hd.spent
    | none => none
  | none => none

/-- `Addr::running` -/
def running (r : Registry S) (b : Boxed T) : Bool := (r.peek b).isNone

/-- `Addr::stopped` -/
def stopped (r : Registry S) (b : Boxed T) : Bool := (r.peek b).isSome

/-- The index that the next handle of the actor `i` gets. -/
def nextHandle (r : Registry S) (i : ℕ) : ℕ :=
  match r.actors[i]? with
  | some x => x.sys.handles.length
  | none => 0

/-- `addr.clone()`: a new handle of the same actor. -/
def cloned (r : Registry S) (b : Boxed T) : Boxed T := { b with handle := r.nextHandle b.id }

/-- The registry or the operation in progress owns the handle. -/
def reserved (r : Registry S) (b : Boxed T) : Bool :=
  r.map b.type = some b || r.lock.bind RegistryOp.self? = some b

/-- The downcast to `Addr<A>` succeeds. -/
def downcast (t : T) (b : Boxed T) : Option (Boxed T) := if b.type = t then some b else none

/-! ### The operations -/

/-- `registry.get(&key)` and what each operation makes of it. -/
def inspect (r : Registry S) : RegistryOp T → Decision T
  | .register self =>
    match r.map self.type with
    | some existing =>
      if ((downcast self.type existing).map r.stopped).getD false then .insert else .refuse
    | none => .insert
  | .replace _ => .insert
  | .unregister _ => .remove
  | .fromRegistry t =>
    match ((r.map t).bind (downcast t)).filter r.running with
    | some b => .hand b
    | none => .spawn

/-- The operation got the write lock and looks at the map. -/
def enter (r : Registry S) (op : RegistryOp T) : Registry S :=
  match r.inspect op with
  | .hand b => (r.onHandle b.id (.derive b.handle .addr)).record [.handed b.type b.id]
  | .refuse =>
    match op.self? with
    -- the refused `Addr` is dropped
    | some self => (r.onHandle self.id (.drop self.handle)).record [.refused self]
    | none => r
  | _ => { r with lock := some op }

/-- The `Addr` may be moved into an operation. -/
def admits (r : Registry S) (op : RegistryOp T) : Bool :=
  match op.self? with
  | some self => r.holds self && !r.reserved self &&
      match r.actors[self.id]? with
      | some x => !x.sys.borrowed self.handle
      | none => false
  | none => true

/-- `registry.insert(key, Box::new(self.clone()))` -/
def insert (r : Registry S) (b : Boxed T) : Registry S :=
  { r.onHandle b.id (.derive b.handle .addr) with
    map := Function.update r.map b.type (some (r.cloned b)) }

/-- `create_loop(Self::default())` and `S::spawn_actor(event_loop)` -/
def spawnService (r : Registry S) (t : T) : Registry S :=
  { r with actors := r.actors ++ [.service S t] }

/-- What `insert` displaced is dropped. -/
def discard (r : Registry S) : Option (Boxed T) → Registry S
  | some old => r.onHandle old.id (.drop old.handle)
  | none => r

/-- The operation writes the map and returns. -/
def commit (r : Registry S) : RegistryOp T → Registry S
  | .register self =>
    ({ r.insert self with lock := none }).record
      [.registered (r.cloned self) ((r.map self.type).bind (downcast self.type))]
  | .replace self =>
    (({ r.insert self with lock := none }).onHandle self.id (.drop self.handle)).record
      [.replaced (r.cloned self) ((r.map self.type).bind (downcast self.type))]
  | .unregister t =>
    ({ r with map := Function.update r.map t none, lock := none }).record
      [.unregistered t ((r.map t).bind (downcast t))]
  | .fromRegistry t =>
    let q := r.spawnService t
    let new : Boxed T := ⟨t, r.actors.length, 1⟩
    ({ (q.insert new).discard (r.map t) with lock := none }).record
      [.spawned (q.cloned new), .handed t new.id]

/-- `Service::try_from_registry`: without the lock there is no answer. -/
def tryFromRegistry (r : Registry S) (t : T) : Registry S :=
  match r.lock with
  | some _ => r.record [.tried t none]
  | none =>
    match ((r.map t).bind (downcast t)).filter r.running with
    | some b => (r.onHandle b.id (.derive b.handle .addr)).record [.tried t (some b.id)]
    | none => r.record [.tried t none]

/-- A step of the actor `i`, with what it tells about its end. -/
def act (r : Registry S) (i : ℕ) (x : Spawned S) (s : Sys (S.actor x.type)) : Registry S :=
  ({ r with actors := r.actors.set i { x with sys := s } }).record
    (if s.hasEnded && !x.sys.hasEnded then [.ended i] else [])

def step (r : Registry S) : RegistryLabel S → Option (Registry S)
  | .spawn t E a c => some { r with actors := r.actors ++ [⟨t, E, E.init a c⟩] }
  | .actor i t l =>
    match r.actors[i]? with
    | some x =>
      if ht : t = x.type then
        if l.uses.any fun h => r.reserved ⟨x.type, i, h⟩ then none
        else (x.env.step x.sys (ht ▸ l)).map (r.act i x)
      else none
    | none => none
  | .enter op => if r.lock = none && r.admits op then some (r.enter op) else none
  | .commit => r.lock.map r.commit
  | .tryFromRegistry t => some (r.tryFromRegistry t)

/-- All interleavings of the registry's operations with the actors. -/
def system (S : Program T) : Machine (Registry S) (RegistryLabel S) := ⟨step⟩

end Registry

end Hannibal
