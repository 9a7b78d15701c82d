/-
The broker.

The broker keeps the `WeakSender` of every subscriber under its context id and
handles one message at a time.  `Handler<Publish<T>>` is cut where other tasks
can come in between: at every upgrade, where a send begins, while it is awaited,
at every entry that `retain` looks at, and at every sender of `live_subscribers`
that is dropped at the end.  The broker's own loop may end at any time
(`halt`): its mailbox goes, and what the handler has in hand is dropped.

The subscribers are the systems of `Environment.system`.  What the broker was
sent and what it upgraded is its own, so nobody else uses it or drops it.
-/
import Hannibal.Actors

namespace Hannibal

/-- `Handler<M>` of the actors that may subscribe. -/
structure Topic {T : Type} (S : Program T) (M : Type) where
  message : ∀ t, M → (S.actor t).Message

/-- A `WeakSender` or a `Sender` of the actor `id`, one of its handles. -/
structure SenderAt where
  id : ℕ
  handle : ℕ
  deriving DecidableEq, Repr

inductive BrokerMessage (M : Type) where
  | publish (msg : M)
  | subscribe (sender : SenderAt)
  | unsubscribe (sender : SenderAt)
  | ping (k : ℕ)
  deriving DecidableEq, Repr

/-- What `Handler<Publish<T>>` has in hand; `values` is the order in which it
goes through the map. -/
structure Publishing (M : Type) where
  msg : M
  values : List SenderAt
  live : List SenderAt
  deriving DecidableEq, Repr

/-- One more live subscriber. -/
def Publishing.collect {M : Type} (p : Publishing M) (s : SenderAt) : Publishing M :=
  { p with live := p.live ++ [s] }

/-- Where the broker is suspended; `todo` is what is left to go through. -/
inductive BrokerPhase (M : Type) where
  | idle
  | upgrading (p : Publishing M) (todo : List SenderAt)
  | sending (p : Publishing M) (todo : List SenderAt)
  | awaiting (p : Publishing M) (i op : ℕ) (todo : List SenderAt)
  | retaining (p : Publishing M) (todo : List SenderAt)
  | dropping (todo : List SenderAt)
  | halted (todo : List SenderAt)
  deriving DecidableEq, Repr

/-- What is recorded; `n` counts the publishes taken so far. -/
inductive BrokerEvent (M : Type) where
  | posted (msg : BrokerMessage M)
  | taken (msg : BrokerMessage M)
  | upgraded (i : ℕ) (ok : Bool)
  | sent (n i : ℕ) (msg : M) (op : ℕ)
  | pruned (i : ℕ)
  | finished
  deriving DecidableEq, Repr

/-- The broker, its mailbox and all actors; `moved` are the weak senders that
were sent to it.  Those it lets go of stay in their tables: they hold nothing. -/
structure Broker {T : Type} (S : Program T) (M : Type) where
  actors : List (Spawned S)
  mailbox : List (BrokerMessage M)
  subscribers : ℕ → Option SenderAt
  phase : BrokerPhase M
  moved : List SenderAt
  trace : List (BrokerEvent M)

inductive BrokerLabel {T : Type} (S : Program T) (M : Type) where
  | spawn (t : T) (E : Environment (S.actor t)) (a : (S.actor t).State) (c : (S.actor t).Ctx)
  | actor (i : ℕ) (t : T) (l : Label (S.actor t))
  | post (msg : BrokerMessage M)
  | next (values : List SenderAt)
  | poll
  | halt

/-- The operation that a step cancels. -/
def Label.cancels {A : Actor} : Label A → Option ℕ
  | .op (.drop j) => some j
  | _ => none

namespace BrokerMessage

variable {M : Type}

/-- The sender that is moved into the message. -/
def sender? : BrokerMessage M → Option SenderAt
  | .publish _ => none
  | .subscribe s => some s
  | .unsubscribe s => some s
  | .ping _ => none

def isPublish : BrokerMessage M → Bool
  | .publish _ => true
  | _ => false

end BrokerMessage

namespace BrokerPhase

variable {M : Type}

/-- The senders of `live_subscribers` that are not dropped yet. -/
def live : BrokerPhase M → List SenderAt
  | .idle => []
  | .upgrading p _ => p.live
  | .sending p _ => p.live
  | .awaiting p _ _ _ => p.live
  | .retaining p _ => p.live
  | .dropping todo => todo
  | .halted todo => todo

def isHalted : BrokerPhase M → Bool
  | .halted _ => true
  | _ => false

/-- The send that is awaited: the subscriber and its operation. -/
def send? : BrokerPhase M → Option (ℕ × ℕ)
  | .awaiting _ i op _ => some (i, op)
  | _ => none

end BrokerPhase

namespace BrokerEvent

variable {M : Type}

def taken? : BrokerEvent M → Option (BrokerMessage M)
  | .taken msg => some msg
  | _ => none

def posted? : BrokerEvent M → Option (BrokerMessage M)
  | .posted msg => some msg
  | _ => none

end BrokerEvent

namespace Broker

variable {T M : Type} {S : Program T}

/-- `Broker::default`, with no actors yet. -/
def init (S : Program T) (M : Type) : Broker S M := ⟨[], [], fun _ => none, .idle, [], []⟩

def record (r : Broker S M) (es : List (BrokerEvent M)) : Broker S M :=
  { r with trace := r.trace ++ es }

def onHandle (r : Broker S M) (i : ℕ) (l : HandleLabel) : Broker S M :=
  { r with actors := r.actors.modify i (·.onHandle l) }

/-- The index that the next handle of the actor `i` gets. -/
def nextHandle (r : Broker S M) (i : ℕ) : ℕ :=
  match r.actors[i]? with
  | some x => x.sys.handles.length
  | none => 0

/-- `WeakSender::upgrade` of the actor `i` gives a sender. -/
def upgrades (r : Broker S M) (i : ℕ) : Bool :=
  match r.actors[i]? with
  | some x => (x.sys.arcs.upgrade .weakSender).isSome
  | none => false

/-- The broker owns the handle. -/
def owns (r : Broker S M) (s : SenderAt) : Bool := s ∈ r.moved || s ∈ r.phase.live

/-- The sender may be moved into a message. -/
def admits (r : Broker S M) (msg : BrokerMessage M) : Bool :=
  match msg.sender? with
  | none => true
  | some s =>
    match Spawned.handleAt r.actors s.id s.handle with
    | some hd => hd.kind = .weakSender && !r.owns s
    | none => false

/-- How many publishes were taken. -/
def published (r : Broker S M) : ℕ :=
  ((r.trace.filterMap BrokerEvent.taken?).filter BrokerMessage.isPublish).length

/-- `vs` goes once through the values of the map. -/
def Enumerates (r : Broker S M) (vs : List SenderAt) : Prop :=
  (vs.map SenderAt.id).Nodup ∧ (∀ s ∈ vs, r.subscribers s.id = some s) ∧
    ∀ i < r.actors.length, (r.subscribers i).isSome → i ∈ vs.map SenderAt.id

instance (r : Broker S M) (vs : List SenderAt) : Decidable (r.Enumerates vs) :=
  inferInstanceAs (Decidable (_ ∧ _ ∧ _))

/-! ### The handlers -/

/-- The broker takes a message; only the handler of `Publish` awaits something. -/
def take (r : Broker S M) (values : List SenderAt) : BrokerMessage M → Option (Broker S M)
  | .publish msg =>
    if r.Enumerates values then
      let p : Publishing M := ⟨msg, values, []⟩
      some (({ r with phase := .upgrading p values }).record [.taken (.publish msg)])
    else none
  | .subscribe s =>
    some (({ r with subscribers := Function.update r.subscribers s.id (some s) }).record
      [.taken (.subscribe s)])
  | .unsubscribe s =>
    some (({ r with subscribers := Function.update r.subscribers s.id none }).record
      [.taken (.unsubscribe s)])
  | .ping k => some (r.record [.taken (.ping k)])

/-- `filter_map(WeakSender::upgrade)` at `s`. -/
def upgrade (r : Broker S M) (p : Publishing M) (s : SenderAt) (todo : List SenderAt) :
    Broker S M :=
  if r.upgrades s.id then
    ({ r.onHandle s.id (.upgrade s.handle) with
      phase := .upgrading (p.collect ⟨s.id, r.nextHandle s.id⟩) todo }).record
        [.upgraded s.id true]
  else ({ r with phase := .upgrading p todo }).record [.upgraded s.id false]

/-- `subscriber.send(msg.0.clone())` begins. -/
def send (K : Topic S M) (r : Broker S M) (p : Publishing M) (s : SenderAt)
    (todo : List SenderAt) : Option (Broker S M) :=
  match r.actors[s.id]? with
  | some x =>
    (x.env.step x.sys (.op (.begin (.send (K.message x.type p.msg)) s.handle))).map fun t =>
      ({ r with
        actors := r.actors.set s.id { x with sys := t }
        phase := .awaiting p s.id x.sys.ops.length todo }).record
          [.sent r.published s.id p.msg x.sys.ops.length]
  | none => none

/-- The send of the subscriber `i` has returned, `Ok` or not. -/
def returned (r : Broker S M) (i op : ℕ) : Bool :=
  match r.actors[i]? with
  | some x =>
    match x.sys.ops[op]? with
    | some o =>
      match o.state with
      | .returned _ => true
      | _ => false
    | none => false
  | none => false

/-- `retain` at `s`; the sender that `upgrade` makes there is dropped at once. -/
def retain (r : Broker S M) (p : Publishing M) (s : SenderAt) (todo : List SenderAt) :
    Broker S M :=
  if r.upgrades s.id then { r with phase := .retaining p todo }
  else
    ({ r with
      subscribers := Function.update r.subscribers s.id none
      phase := .retaining p todo }).record [.pruned s.id]

/-- The handler goes on to where it is next suspended; a broker that never
prunes leaves out `retain`. -/
def poll (K : Topic S M) (prunes : Bool) (r : Broker S M) : Option (Broker S M) :=
  match r.phase with
  | .idle => none
  | .upgrading p (s :: todo) => some (r.upgrade p s todo)
  | .upgrading p [] => some { r with phase := .sending p p.live }
  | .sending p (s :: todo) => r.send K p s todo
  | .sending p [] =>
    some { r with phase := if prunes then .retaining p p.values else .dropping p.live }
  | .awaiting p i op todo =>
    if r.returned i op then some { r with phase := .sending p todo } else none
  | .retaining p (s :: todo) => some (r.retain p s todo)
  | .retaining p [] => some { r with phase := .dropping p.live }
  | .dropping (s :: todo) =>
    some { r.onHandle s.id (.drop s.handle) with phase := .dropping todo }
  | .dropping [] => some (({ r with phase := .idle }).record [.finished])
  | .halted (s :: todo) =>
    some { r.onHandle s.id (.drop s.handle) with phase := .halted todo }
  | .halted [] => none

/-- Another task may take the step: it leaves alone what the broker owns and the
send that it awaits. -/
def allows (r : Broker S M) (i : ℕ) {A : Actor} (l : Label A) : Bool :=
  !(l.uses.any fun h => r.owns ⟨i, h⟩) && !(l.cancels.any fun j => r.phase.send? = some (i, j))

def step (K : Topic S M) [DecidableEq T] (prunes : Bool) (r : Broker S M) :
    BrokerLabel S M → Option (Broker S M)
  | .spawn t E a c => some { r with actors := r.actors ++ [⟨t, E, E.init a c⟩] }
  | .actor i t l =>
    match r.actors[i]? with
    | some x =>
      if ht : t = x.type then
        if r.allows i l then
          (x.env.step x.sys (ht ▸ l)).map fun s =>
            { r with actors := r.actors.set i { x with sys := s } }
        else none
      else none
    | none => none
  | .post msg =>
    if r.admits msg && !r.phase.isHalted then
      some (({ r with
        mailbox := r.mailbox ++ [msg]
        moved := r.moved ++ msg.sender?.toList }).record [.posted msg])
    else none
  | .next values =>
    match r.phase, r.mailbox with
    | .idle, msg :: rest => { r with mailbox := rest }.take values msg
    | _, _ => none
  | .poll => r.poll K prunes
  | .halt =>
    if r.phase.isHalted then none
    else some { r with mailbox := [], phase := .halted r.phase.live }

/-- All interleavings of the broker with its clients and subscribers. -/
def system (K : Topic S M) [DecidableEq T] (prunes : Bool) :
    Machine (Broker S M) (BrokerLabel S M) := ⟨step K prunes⟩

end Broker

namespace Tally

/-- A program of tallies, which take numbers as their topic. -/
def listeners : Program Unit := ⟨fun _ => tally, fun _ => (0 : ℕ)⟩

def numbers : Topic listeners ℕ := ⟨fun _ m => m⟩

end Tally

/-- The messages that were taken, in order. -/
def takenMsgs {M : Type} (t : List (BrokerEvent M)) : List (BrokerMessage M) :=
  t.filterMap BrokerEvent.taken?

/-- After these messages the actor `i` is subscribed: the last one about it was
a `Subscribe`. -/
def subscribed {M : Type} (i : ℕ) (msgs : List (BrokerMessage M)) : Bool :=
  msgs.foldl (fun b msg =>
    match msg with
    | .publish _ => b
    | .subscribe s => if s.id = i then true else b
    | .unsubscribe s => if s.id = i then false else b
    | .ping _ => b) false

end Hannibal
