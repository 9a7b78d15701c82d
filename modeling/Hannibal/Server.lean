/-
The actor as a server that takes one turn at a time.

`Server` knows neither polls nor await points.  A turn is one step: a message is
handled from its first poll to its last, an actor is restarted with both hooks, and the
loop is left with everything that runs on the way out.  Meanwhile the inbox accepts
messages, between the turns only.

* **`turns_atomic`** — whatever interleaving an actor went through, a server did the
  same one turn at a time, and between two turns they agree;
* `Shows.crash` — an actor that crashes in the middle of a turn is a server that crashed
  before it.
-/
import Hannibal.Settling

/-! ### Driving a future -/

namespace Future

variable {W F R S : Type*} {poll : W → F → S → (F ⊕ R) × S}

/-- Poll the future with one observation of the world after the other, until it is ready
or they are used up. -/
def drive (poll : W → F → S → (F ⊕ R) × S) : List W → F → S → (F ⊕ R) × S
  | [], f, s => (.inl f, s)
  | w :: ws, f, s =>
    match poll w f s with
    | (.inl f, s) => drive poll ws f s
    | (.inr r, s) => (.inr r, s)

theorem drive_cons_pending {w : W} {f g : F} {s u : S} (h : poll w f s = (.inl g, u))
    (ws : List W) : drive poll (w :: ws) f s = drive poll ws g u := by
  rw [drive, h]

theorem drive_cons_ready {w : W} {f : F} {r : R} {s u : S} (h : poll w f s = (.inr r, u))
    (ws : List W) : drive poll (w :: ws) f s = (.inr r, u) := by
  rw [drive, h]

/-- A future that still waits goes on from there. -/
theorem drive_append {ws : List W} {f f' : F} {s s' : S}
    (h : drive poll ws f s = (.inl f', s')) (vs : List W) :
    drive poll (ws ++ vs) f s = drive poll vs f' s' := by
  induction ws generalizing f s with
  | nil =>
    cases h
    rfl
  | cons w ws ih =>
    rcases hp : poll w f s with ⟨g | r, u⟩
    · rw [drive_cons_pending hp] at h
      rw [List.cons_append, drive_cons_pending hp, ih h]
    · rw [drive_cons_ready hp] at h
      cases h

theorem drive_snoc {ws : List W} {f f' : F} {s s' : S}
    (h : drive poll ws f s = (.inl f', s')) (w : W) :
    drive poll (ws ++ [w]) f s = poll w f' s' := by
  rw [drive_append h, drive]
  rcases poll w f' s' with ⟨g | r, u⟩ <;> rfl

end Future

namespace Hannibal

variable {A : Actor}

/-! ### The server -/

/-- What the outside sees of an actor. -/
inductive Deed (A : Actor) where
  | accepted (e : Envelope A)
  | served (i : ℕ) (reply : Option (Reply A))
  | gaveUp (i : ℕ)
  | refreshed (i : ℕ)
  | handled (x : A.Item)
  | released

inductive Stage (A : Actor) where
  | starting
  | serving
  | done (o : Exit A)
  | gone (o : Exit A)

structure Server (A : Actor) where
  inbox : List (Envelope A)
  stage : Stage A
  actor : A.State
  ctx : A.Ctx
  cursor : ℕ
  deeds : List (Deed A)

/-- `ws` is what a handler sees from its first poll to its last. -/
inductive Turn (A : Actor) where
  | accept (e : Envelope A)
  | start (w : A.World)
  | serve (ws : List A.World)
  | giveUp (ws : List A.World)
  | refuseRestart
  | restart (w w' : A.World)
  | item (ws : List A.World)
  | stop (w w' : A.World)
  | hangUp (w w' : A.World)
  | streamEnd (w w' : A.World)
  | panic
  | drop
  | release

def TaskFuture.drive (ws : List A.World) (fut : TaskFuture A) (p : A.State × A.Ctx) :
    (TaskFuture A ⊕ Option (Reply A)) × A.State × A.Ctx :=
  Future.drive (fun w fut p => TaskFuture.poll w fut p.1 p.2) ws fut p

def Actor.drive (A : Actor) (ws : List A.World) (fut : A.Fut) (p : A.State × A.Ctx) :
    (A.Fut ⊕ A.Response) × A.State × A.Ctx :=
  Future.drive (fun w fut p => A.poll w fut p.1 p.2) ws fut p

namespace Environment

/-- What a restart makes of the actor before `started` runs. -/
def renewed (E : Environment A) (w : A.World) (p : A.State × A.Ctx) : A.State × A.Ctx :=
  match E.strategy with
  | .recreateFromDefault => (A.default, (A.stopped w p.1 p.2).2)
  | _ => A.stopped w p.1 p.2

/-- What `stopped` finds. -/
def finished (E : Environment A) (w : A.World) (p : A.State × A.Ctx) : A.State × A.Ctx :=
  match E.stream with
  | some _ => A.finished w p.1 p.2
  | none => p

/-- What the last hooks make of the actor. -/
def closing (E : Environment A) (w w' : A.World) (p : A.State × A.Ctx) : A.State × A.Ctx :=
  A.stopped w' (E.finished w p).1 (E.finished w p).2

end Environment

namespace Server

def spawn (a : A.State) (c : A.Ctx) : Server A := ⟨[], .starting, a, c, 0, []⟩

def put (v : Server A) (p : A.State × A.Ctx) : Server A := { v with actor := p.1, ctx := p.2 }

def started (v : Server A) (w : A.World) (ds : List (Deed A)) : Server A :=
  match A.started w v.actor v.ctx with
  | (.ok _, p) => { v.put p with stage := .serving, deeds := v.deeds ++ ds }
  | (.error e, p) => { v.put p with stage := .done (.err (.hook e)) }

def restarted (E : Environment A) (v : Server A) (i : ℕ) (w w' : A.World) : Option (Server A) :=
  match E.stream, E.strategy with
  | some _, _ => none
  | none, .nonRestartable => none
  | none, _ => some ((v.put (E.renewed w (v.actor, v.ctx))).started w' [.refreshed i])

/-- An actor that cannot be restarted goes on; on a stream it dies of it. -/
def refused (E : Environment A) (v : Server A) (i : ℕ) : Option (Server A) :=
  match E.stream, E.strategy with
  | some _, _ => some { v with stage := .done .panicked }
  | none, .nonRestartable => some { v with deeds := v.deeds ++ [.refreshed i] }
  | none, _ => none

def closed (E : Environment A) (v : Server A) (w w' : A.World) : Server A :=
  { v.put (E.closing w w' (v.actor, v.ctx)) with
    stage := .done (.ok (E.closing w w' (v.actor, v.ctx)).1) }

def servedBy (v : Server A) (i : ℕ) (f : TaskFn A) (ws : List A.World) : Option (Server A) :=
  match f.future.drive ws (v.actor, v.ctx) with
  | (.inr reply, p) => some { v.put p with deeds := v.deeds ++ [.served i reply] }
  | (.inl _, _) => none

def gaveUpBy (E : Environment A) (v : Server A) (i : ℕ) (f : TaskFn A) (ws : List A.World) :
    Option (Server A) :=
  match f.future.drive ws (v.actor, v.ctx), E.taskTimeout with
  | (.inl _, p), some _ =>
    some { v.put p with
      stage := if E.config.failOnTimeout then .done (.err .timeout) else .serving
      deeds := v.deeds ++ [.gaveUp i] }
  | _, _ => none

def handledBy (v : Server A) (x : A.Item) (ws : List A.World) : Option (Server A) :=
  match A.drive ws (A.handleItem x) (v.actor, v.ctx) with
  | (.inr _, p) => some { v.put p with deeds := v.deeds ++ [.handled x] }
  | (.inl _, _) => none

/-- A turn that begins with the head of the inbox. -/
def head (v : Server A) : Option (Envelope A × Server A) :=
  match v.stage, v.inbox with
  | .serving, e :: q => some (e, { v with inbox := q })
  | _, _ => none

/-- The next item of the stream, `some none` at its end. -/
def next (E : Environment A) (v : Server A) : Option (Option A.Item) :=
  match v.stage, E.stream with
  | .serving, some items => some (items v.cursor)
  | _, _ => none

def step (E : Environment A) (v : Server A) : Turn A → Option (Server A)
  | .accept e =>
    match v.stage with
    | .gone _ => none
    | _ => some { v with inbox := v.inbox ++ [e], deeds := v.deeds ++ [.accepted e] }
  | .start w =>
    match v.stage with
    | .starting => some (v.started w [])
    | _ => none
  | .serve ws =>
    match v.head with
    | some (⟨i, .task f⟩, v) => v.servedBy i f ws
    | _ => none
  | .giveUp ws =>
    match v.head with
    | some (⟨i, .task f⟩, v) => v.gaveUpBy E i f ws
    | _ => none
  | .refuseRestart =>
    match v.head with
    | some (⟨i, .restart⟩, v) => v.refused E i
    | _ => none
  | .restart w w' =>
    match v.head with
    | some (⟨i, .restart⟩, v) => v.restarted E i w w'
    | _ => none
  | .item ws =>
    match v.next E with
    | some (some x) => ({ v with cursor := v.cursor + 1 }).handledBy x ws
    | _ => none
  | .stop w w' =>
    match v.head with
    | some (⟨_, .stop⟩, v) => some (v.closed E w w')
    | _ => none
  | .hangUp w w' =>
    match v.stage, v.inbox with
    | .serving, [] => some (v.closed E w w')
    | _, _ => none
  | .streamEnd w w' =>
    match v.next E with
    | some none => some (v.closed E w w')
    | _ => none
  | .panic =>
    match v.stage with
    | .starting | .serving => some { v with stage := .done .panicked }
    | _ => none
  | .drop =>
    match v.stage with
    | .starting | .serving => some { v with stage := .done .dropped }
    | _ => none
  | .release =>
    match v.stage with
    | .done o => some { v with inbox := [], stage := .gone o, deeds := v.deeds ++ [.released] }
    | _ => none

def system (E : Environment A) : Machine (Server A) (Turn A) := ⟨step E⟩

end Server

/-! ### Where the actor is in its turn -/

def Event.deed? : Event A → Option (Deed A)
  | .accepted e => some (.accepted e)
  | .completed i reply => some (.served i reply)
  | .overran i => some (.gaveUp i)
  | .refreshed i => some (.refreshed i)
  | .itemHandled x => some (.handled x)
  | .released => some .released
  | _ => none

def deedsOf (t : List (Event A)) : List (Deed A) := t.filterMap Event.deed?

@[simp] theorem deedsOf_append (t u : List (Event A)) : deedsOf (t ++ u) = deedsOf t ++ deedsOf u :=
  List.filterMap_append

/-- Why the loop is on its way out, and what it took for that. -/
inductive Leaves (E : Environment A) (s : Sys A) : List (Envelope A) → Prop where
  | stop (i : ℕ) : Leaves E s [⟨i, .stop⟩]
  | hangUp (hm : .mailboxEnd ∈ s.trace) : Leaves E s []
  | streamEnd (items : ℕ → Option A.Item) (hs : E.stream = some items)
      (hx : items s.cursor = none) : Leaves E s []

/-- The two have the same values and are at the same place of the stream. -/
def Server.Agrees (v : Server A) (s : Sys A) : Prop :=
  v.actor = s.actor ∧ v.ctx = s.ctx ∧ v.cursor = s.cursor

/-- The server is where the turn in progress began, and the turn holds what it took. -/
def InTurn (E : Environment A) (s : Sys A) (v : Server A) (held : List (Envelope A)) : Prop :=
  match s.phase with
  | .starting => held = [] ∧ v.stage = .starting ∧ v.Agrees s
  | .receiving => held = [] ∧ v.stage = .serving ∧ v.Agrees s
  | .task i fut => ∃ f ws, held = [⟨i, .task f⟩] ∧ v.stage = .serving ∧
      f.future.drive ws (v.actor, v.ctx) = (.inl fut, s.actor, s.ctx) ∧ v.cursor = s.cursor
  | .item x fut => ∃ items ws, held = [] ∧ v.stage = .serving ∧ E.stream = some items ∧
      items v.cursor = some x ∧ s.cursor = v.cursor + 1 ∧
      A.drive ws (A.handleItem x) (v.actor, v.ctx) = (.inl fut, s.actor, s.ctx)
  | .refreshStopping i => held = [⟨i, .restart⟩] ∧ v.stage = .serving ∧ E.stream = none ∧
      E.strategy ≠ .nonRestartable ∧ v.Agrees s
  | .refreshStarting i => held = [⟨i, .restart⟩] ∧ v.stage = .serving ∧ E.stream = none ∧
      E.strategy ≠ .nonRestartable ∧ (∃ w, E.renewed w (v.actor, v.ctx) = (s.actor, s.ctx)) ∧
      v.cursor = s.cursor
  | .finishing => v.stage = .serving ∧ E.stream ≠ none ∧ Leaves E s held ∧ v.Agrees s
  -- without a stream it is of no account what `finished` would have seen
  | .stopping => v.stage = .serving ∧ Leaves E s held ∧
      (A.World → ∃ w, E.finished w (v.actor, v.ctx) = (s.actor, s.ctx)) ∧ v.cursor = s.cursor
  | .leaving o | .releasing o => v.stage = .done o
  | .ended o => held = [] ∧ v.stage = .gone o

/-- The server has done what the actor shows, and begins with the turn in progress. -/
structure Shows (E : Environment A) (s : Sys A) (v : Server A) : Prop where
  deeds : v.deeds = deedsOf s.trace
  turn : ∃ held, v.inbox = held ++ s.chan.queue ∧ InTurn E s v held

theorem Environment.renewed_recreate {E : Environment A} (hR : E.strategy = .recreateFromDefault)
    (w : A.World) (p : A.State × A.Ctx) :
    E.renewed w p = (A.default, (A.stopped w p.1 p.2).2) := by
  rw [renewed, hR]

theorem Environment.renewed_stopped {E : Environment A} (hR : E.strategy ≠ .recreateFromDefault)
    (w : A.World) (p : A.State × A.Ctx) : E.renewed w p = A.stopped w p.1 p.2 := by
  unfold renewed
  cases hst : E.strategy with
  | recreateFromDefault => exact absurd hst hR
  | restartOnly | nonRestartable => rfl

namespace Server

variable {E : Environment A} {v : Server A}

theorem started_ok {w : A.World} {u : Unit} {p : A.State × A.Ctx} (ds : List (Deed A))
    (h : A.started w v.actor v.ctx = (.ok u, p)) :
    v.started w ds = { v.put p with stage := .serving, deeds := v.deeds ++ ds } := by
  rw [started, h]

theorem started_error {w : A.World} {e : A.Error} {p : A.State × A.Ctx} (ds : List (Deed A))
    (h : A.started w v.actor v.ctx = (.error e, p)) :
    v.started w ds = { v.put p with stage := .done (.err (.hook e)) } := by
  rw [started, h]

theorem head_eq {e : Envelope A} {q : List (Envelope A)} (hv : v.stage = .serving)
    (hi : v.inbox = e :: q) : v.head = some (e, { v with inbox := q }) := by
  unfold head
  rw [hv, hi]

theorem step_restart {i : ℕ} {q : List (Envelope A)} (hv : v.stage = .serving)
    (hi : v.inbox = ⟨i, .restart⟩ :: q) (hs : E.stream = none)
    (hR : E.strategy ≠ .nonRestartable) (w w' : A.World) :
    v.step E (.restart w w') =
      some (({ v with inbox := q }.put (E.renewed w (v.actor, v.ctx))).started w'
        [.refreshed i]) := by
  simp only [step, head_eq hv hi, restarted, hs]

theorem next_eq {items : ℕ → Option A.Item} (hv : v.stage = .serving)
    (hs : E.stream = some items) : v.next E = some (items v.cursor) := by
  unfold next
  rw [hv, hs]

end Server

section Simulation

variable {E : Environment A} {s t : Sys A} {v : Server A} {d : List (Envelope A)}

theorem Leaves.congr (h : Leaves E s d) (hc : t.cursor = s.cursor)
    (hm : .mailboxEnd ∈ s.trace → .mailboxEnd ∈ t.trace) : Leaves E t d := by
  cases h with
  | stop i => exact .stop i
  | hangUp h => exact .hangUp (hm h)
  | streamEnd items hs hx => exact .streamEnd items hs (hc ▸ hx)

/-- What happens outside the loop does not disturb the turn. -/
theorem InTurn.outside (h : InTurn E s v d) {es : List (Event A)} (ho : s.Outside t es)
    (q : List (Envelope A)) (ds : List (Deed A)) :
    InTurn E t { v with inbox := q, deeds := ds } d := by
  have hl : Leaves E s d → Leaves E t d := fun h =>
    h.congr ho.cursor fun hm => by
      rw [ho.trace]
      exact List.mem_append_left _ hm
  unfold InTurn at h ⊢
  rw [ho.phase]
  split at h
  all_goals simp only [Server.Agrees, ho.actor, ho.ctx, ho.cursor] at h ⊢
  case h_7 => exact ⟨h.1, h.2.1, hl h.2.2.1, h.2.2.2⟩
  case h_8 => exact ⟨h.1, hl h.2.1, h.2.2⟩
  all_goals exact h

/-- The server takes its turn where the actor comes to the end of it. -/
theorem Shows.turned {u : Server A} {l : Turn A} (hv : v.step E l = some u)
    (hd : u.deeds = deedsOf t.trace) (hi : u.inbox = d ++ t.chan.queue)
    (ht : InTurn E t u d) : ∃ v', (Server.system E).Reaches v v' ∧ Shows E t v' :=
  ⟨u, .single hv, hd, d, hi, ht⟩

/-- Within a turn the server waits. -/
theorem Shows.stays (hd : v.deeds = deedsOf t.trace) (hi : v.inbox = d ++ t.chan.queue)
    (ht : InTurn E t v d) : ∃ v', (Server.system E).Reaches v v' ∧ Shows E t v' :=
  ⟨v, .refl _ _, hd, d, hi, ht⟩

/-- A task that overruns has been polled without success, or was not polled again. -/
theorem timeoutFut_overran {T : Option ℕ} {sel : Select} {w : A.World} {fut : TaskFuture A}
    {a a' : A.State} {c c' : A.Ctx} (h : timeoutFut T sel w fut a c = (.timeout, a', c')) :
    T ≠ none ∧ ((a', c') = (a, c) ∨ ∃ fut', fut.poll w a c = (.inl fut', a', c')) := by
  unfold timeoutFut at h
  cases T with
  | none => rcases hp : fut.poll w a c with ⟨g | r, b, d⟩ <;> simp [hp] at h
  | some n =>
    refine ⟨by simp, ?_⟩
    simp only at h
    split at h
    · cases h
      exact .inl rfl
    · rcases hp : fut.poll w a c with ⟨g | r, b, d⟩ <;> simp only [hp] at h
      · split at h <;> cases h
        exact .inr ⟨g, rfl⟩
      · cases h

namespace Shows

/-- What happens within a turn is no deed. -/
theorem silent (h : Shows E s v) {es : List (Event A)} (hes : deedsOf es = []) :
    v.deeds = deedsOf (s.trace ++ es) := by
  rw [deedsOf_append, hes, List.append_nil, h.deeds]

theorem outside (h : Shows E s v) (hr : s.ReceiverHeld) {es : List (Event A)}
    (ho : s.Outside t es) (he : s.Effect t es) :
    ∃ v', (Server.system E).Reaches v v' ∧ Shows E t v' := by
  obtain ⟨held, hi, ht⟩ := h.turn
  have hrest : t.chan.queue = s.chan.queue → deedsOf es = [] →
      ∃ v', (Server.system E).Reaches v v' ∧ Shows E t v' := fun hq hd =>
    Shows.stays (d := held) (ho.trace ▸ h.silent hd) (by rw [hq, hi])
      (ht.outside ho v.inbox v.deeds)
  have hret : ∀ i (st : OpState A), deedsOf (Sys.returnEvents i st) = [] := by
    intro i st
    cases st <;> rfl
  cases he with
  | idle es he hops hq =>
    refine hrest hq (List.filterMap_eq_nil_iff.mpr fun ev hev => ?_)
    have := he ev hev
    cases ev <;> first | rfl | cases this
  | add o hst hops hq => exact hrest hq (hret _ _)
  | move i o st hi hm hops hq => exact hrest hq (hret _ _)
  | accept i o hi' hst hrec hops hq =>
    -- the receiver is there, so the server has not gone
    have hgone : ∀ o, v.stage ≠ .gone o := by
      intro o hv
      unfold InTurn at ht
      unfold Sys.ReceiverHeld at hr
      split at ht <;> simp_all [Phase.isEnded]
    have hd : v.deeds ++ [.accepted (Sys.envelope i o)] = deedsOf t.trace := by
      rw [ho.trace, deedsOf_append, h.deeds]
      exact congrArg (deedsOf s.trace ++ ·) (congrArg (_ :: ·) (hret _ _).symm)
    have hin : v.inbox ++ [Sys.envelope i o] = held ++ t.chan.queue := by
      rw [hi, hq, List.append_assoc]
    refine Shows.turned (l := .accept (Sys.envelope i o)) ?_ hd hin (ht.outside ho _ _)
    show (match v.stage with | .gone _ => none | _ => some _) = some _
    split
    · next o hv => exact absurd hv (hgone o)
    · rfl

/-! ### The steps of the loop -/

/-- The loop has taken a payload, or seen the end of the mailbox, and goes where `t` is. -/
theorem received (h : Shows E s v) (hp : s.phase = .receiving) :
    v.inbox = s.chan.queue ∧ v.stage = .serving ∧ v.Agrees s := by
  obtain ⟨held, hi, ht⟩ := h.turn
  rw [InTurn, hp] at ht
  obtain ⟨rfl, hv, ha⟩ := ht
  exact ⟨hi, hv, ha⟩

theorem startOk (h : Shows E s v) (w : A.World) {es : List (Event A)} {a : A.State} {c : A.Ctx}
    {u : Unit} (hp : s.Starts es) (hw : A.started w s.actor s.ctx = (.ok u, a, c)) :
    ∃ v', (Server.system E).Reaches v v' ∧
      Shows E (({ s with actor := a, ctx := c, phase := .receiving }).record
        (.started w s.incarnation true :: es)) v' := by
  obtain ⟨held, hi, ht⟩ := h.turn
  cases hp with
  | first hp =>
    rw [InTurn, hp] at ht
    obtain ⟨rfl, hv, ha, hc, hcur⟩ := ht
    rw [← ha, ← hc] at hw
    refine Shows.turned (l := .start w) (d := [])
      (u := { v.put (a, c) with stage := .serving, deeds := v.deeds ++ [] }) ?_ ?_ hi
      ⟨rfl, rfl, rfl, rfl, hcur⟩
    · simp only [Server.step, hv, Server.started_ok [] hw]
    · rw [Sys.record_trace, deedsOf_append, h.deeds]
      rfl
  | refresh i hp =>
    -- both hooks of the restart were one turn of the server
    rw [InTurn, hp] at ht
    obtain ⟨rfl, hv, hs, hR, ⟨w', hr⟩, hcur⟩ := ht
    refine Shows.turned (l := .restart w' w) (d := [])
      (Server.step_restart hv hi hs hR w' w) ?_ ?_ ?_
    all_goals rw [hr, Server.started_ok (p := (a, c)) [.refreshed i] hw]
    · show v.deeds ++ [.refreshed i] = _
      rw [Sys.record_trace, deedsOf_append, h.deeds]
      rfl
    · rfl
    · exact ⟨rfl, rfl, rfl, rfl, hcur⟩

theorem startErr (h : Shows E s v) (w : A.World) {es : List (Event A)} {e : A.Error}
    {a : A.State} {c : A.Ctx} (hp : s.Starts es)
    (hw : A.started w s.actor s.ctx = (.error e, a, c)) :
    ∃ v', (Server.system E).Reaches v v' ∧
      Shows E (({ s with actor := a, ctx := c, phase := .leaving (.err (.hook e)) }).record
        [.started w s.incarnation false]) v' := by
  obtain ⟨held, hi, ht⟩ := h.turn
  have hd : v.deeds = deedsOf (s.trace ++ [.started w s.incarnation false]) := h.silent rfl
  cases hp with
  | first hp =>
    rw [InTurn, hp] at ht
    obtain ⟨rfl, hv, ha, hc, hcur⟩ := ht
    rw [← ha, ← hc] at hw
    refine Shows.turned (l := .start w) (d := [])
      (u := { v.put (a, c) with stage := .done (.err (.hook e)) }) ?_ hd hi rfl
    simp only [Server.step, hv, Server.started_error [] hw]
  | refresh i hp =>
    rw [InTurn, hp] at ht
    obtain ⟨rfl, hv, hs, hR, ⟨w', hr⟩, hcur⟩ := ht
    refine Shows.turned (l := .restart w' w) (d := [])
      (Server.step_restart hv hi hs hR w' w) ?_ ?_ ?_
    all_goals rw [hr, Server.started_error (p := (a, c)) [.refreshed i] hw]
    · exact hd
    · rfl
    · rfl

theorem refreshStop (h : Shows E s v) (w : A.World) {i : ℕ} (hp : s.phase = .refreshStopping i)
    (hR : E.strategy ≠ .recreateFromDefault) :
    ∃ v', (Server.system E).Reaches v v' ∧
      Shows E { s.stoppedHook w with phase := .refreshStarting i } v' := by
  obtain ⟨held, hi, ht⟩ := h.turn
  rw [InTurn, hp] at ht
  obtain ⟨rfl, hv, hs, hn, ha, hc, hcur⟩ := ht
  refine Shows.stays ?_ hi ⟨rfl, hv, hs, hn, ⟨w, ?_⟩, hcur⟩
  · exact h.silent rfl
  · rw [Environment.renewed_stopped hR, ha, hc]
    rfl

theorem recreate (h : Shows E s v) (w : A.World) {i : ℕ} (hp : s.phase = .refreshStopping i)
    (hR : E.strategy = .recreateFromDefault) :
    ∃ v', (Server.system E).Reaches v v' ∧
      Shows E { (s.stoppedHook w).recreate with phase := .refreshStarting i } v' := by
  obtain ⟨held, hi, ht⟩ := h.turn
  rw [InTurn, hp] at ht
  obtain ⟨rfl, hv, hs, hn, ha, hc, hcur⟩ := ht
  refine Shows.stays ?_ hi ⟨rfl, hv, hs, hn, ⟨w, ?_⟩, hcur⟩
  · show v.deeds = deedsOf (s.trace ++ _ ++ _)
    rw [deedsOf_append, deedsOf_append, h.deeds]
    exact ((List.append_nil _).trans (List.append_nil _)).symm
  · rw [Environment.renewed_recreate hR, ha, hc]
    rfl

theorem finishing (h : Shows E s v) (w : A.World) (hp : s.phase = .finishing) :
    ∃ v', (Server.system E).Reaches v v' ∧
      Shows E { s.finishedHook w with phase := .stopping } v' := by
  obtain ⟨held, hi, ht⟩ := h.turn
  rw [InTurn, hp] at ht
  obtain ⟨hv, hs, hl, ha, hc, hcur⟩ := ht
  refine Shows.stays ?_ hi ⟨hv, hl.congr rfl ?_, fun _ => ⟨w, ?_⟩, hcur⟩
  · exact h.silent rfl
  · exact fun hm => List.mem_append_left _ hm
  · obtain ⟨items, hitems⟩ := Option.ne_none_iff_exists'.mp hs
    simp only [Environment.finished, hitems, ha, hc]
    rfl

theorem stopping (h : Shows E s v) (w : A.World) (hp : s.phase = .stopping)
    (hq : .mailboxEnd ∈ s.trace → s.chan.queue = []) :
    ∃ v', (Server.system E).Reaches v v' ∧
      Shows E { s.stoppedHook w with phase := .leaving (.ok (A.stopped w s.actor s.ctx).1) }
        v' := by
  obtain ⟨held, hi, ht⟩ := h.turn
  rw [InTurn, hp] at ht
  obtain ⟨hv, hl, hf, hcur⟩ := ht
  obtain ⟨w', hf⟩ := hf w
  -- whatever the reason, the server is closed as the actor is
  have hend : ∀ l, v.step E l = some (({ v with inbox := s.chan.queue }).closed E w' w) →
      ∃ v', (Server.system E).Reaches v v' ∧
        Shows E { s.stoppedHook w with phase := .leaving (.ok (A.stopped w s.actor s.ctx).1) }
          v' := by
    intro l hst
    refine Shows.turned (d := []) hst ?_ rfl ?_
    · exact h.silent rfl
    · simp only [Server.closed, Environment.closing, hf, InTurn]
  cases hl with
  | stop i =>
    refine hend (.stop w' w) ?_
    simp only [Server.step, Server.head_eq hv hi]
    rfl
  | hangUp hm =>
    have hnil : v.inbox = [] := hi.trans (hq hm)
    refine hend (.hangUp w' w) ?_
    rw [hq hm, ← hnil]
    show (match v.stage, v.inbox with
      | .serving, [] => some (v.closed E w' w)
      | _, _ => none) = some (v.closed E w' w)
    rw [hv, hnil]
  | streamEnd items hs hx =>
    have hin : v.inbox = s.chan.queue := hi
    refine hend (.streamEnd w' w) ?_
    rw [← hin]
    show v.step E _ = some (v.closed E w' w)
    simp only [Server.step, Server.next_eq hv hs, hcur, hx]

/-- The loop goes on with what it took. -/
theorem takes (h : Shows E s v) (hp : s.phase = .receiving) {es : List (Event A)}
    (ht : t.trace = s.trace ++ es) (hes : deedsOf es = [])
    (hq : s.chan.queue = d ++ t.chan.queue)
    (hin : v.stage = .serving → v.Agrees s → InTurn E t v d) :
    ∃ v', (Server.system E).Reaches v v' ∧ Shows E t v' := by
  obtain ⟨hi, hv, ha⟩ := h.received hp
  exact Shows.stays (ht ▸ h.silent hes) (hi.trans hq) (hin hv ha)

/-- The loop is on its way out. -/
theorem leaves (h : Shows E s v) (hp : s.phase = .receiving) {es : List (Event A)}
    (ht : t.trace = s.trace ++ es) (hes : deedsOf es = [])
    (hq : s.chan.queue = d ++ t.chan.queue) (hp' : t.phase = E.afterLoop)
    (ha : t.actor = s.actor) (hc : t.ctx = s.ctx) (hcur : t.cursor = s.cursor)
    (hl : Leaves E t d) : ∃ v', (Server.system E).Reaches v v' ∧ Shows E t v' := by
  refine h.takes hp ht hes hq fun hv hag => ?_
  rw [Server.Agrees, ← ha, ← hc, ← hcur] at hag
  unfold Environment.afterLoop at hp'
  rw [InTurn]
  split at hp'
  · next hs =>
    rw [hp']
    refine ⟨hv, hl, fun w => ⟨w, ?_⟩, hag.2.2⟩
    simp only [Environment.finished, hs, hag.1, hag.2.1]
  · next items hs =>
    rw [hp']
    exact ⟨hv, by simp [hs], hl, hag⟩

theorem restartRefused (h : Shows E s v) (hp : s.phase = .receiving) {e : Envelope A}
    {q : List (Envelope A)} (hq : s.chan.queue = e :: q) (hf : e.payload = .restart) {p : Phase A}
    {es : List (Event A)} {z : Stage A} {l : List (Deed A)}
    (hst : ({ v with inbox := q }).refused E e.id =
      some { v with inbox := q, stage := z, deeds := v.deeds ++ l })
    (hes : deedsOf es = l)
    (hin : v.Agrees s → InTurn E
      (({ s with chan := s.chan.advance, phase := p }).record es)
      { v with inbox := q, stage := z, deeds := v.deeds ++ l } []) :
    ∃ v', (Server.system E).Reaches v v' ∧
      Shows E (({ s with chan := s.chan.advance, phase := p }).record es) v' := by
  obtain ⟨hi, hv, ha⟩ := h.received hp
  have he : e = ⟨e.id, .restart⟩ := by rw [← hf]
  rw [hq, he] at hi
  refine Shows.turned (l := .refuseRestart) (d := []) ?_ ?_ ?_ (hin ha)
  · simp only [Server.step, Server.head_eq hv hi, hst]
  · rw [Sys.record_trace, deedsOf_append, hes, h.deeds]
  · rw [Sys.record_chan, Mpsc.advance_queue, hq]
    rfl

theorem taskPending (h : Shows E s v) {i : ℕ} {w : A.World} {sel : Select}
    {fut fut' : TaskFuture A} {a : A.State} {c : A.Ctx} (hp : s.phase = .task i fut)
    (hw : timeoutFut E.taskTimeout sel w fut s.actor s.ctx = (.pending fut', a, c)) :
    ∃ v', (Server.system E).Reaches v v' ∧
      Shows E { ({ s with actor := a, ctx := c }).record [.polled w sel fut] with
        phase := .task i fut' } v' := by
  obtain ⟨held, hi, ht⟩ := h.turn
  rw [InTurn, hp] at ht
  obtain ⟨f, ws, rfl, hv, hd, hcur⟩ := ht
  refine Shows.stays ?_ hi ⟨f, ws ++ [w], rfl, hv, ?_, hcur⟩
  · exact h.silent rfl
  · exact (Future.drive_snoc hd w).trans (timeoutFut_pending hw)

theorem taskDone (h : Shows E s v) {i : ℕ} {w : A.World} {sel : Select} {fut : TaskFuture A}
    {reply : Option (Reply A)} {a : A.State} {c : A.Ctx} (hp : s.phase = .task i fut)
    (hw : timeoutFut E.taskTimeout sel w fut s.actor s.ctx = (.ok reply, a, c)) :
    ∃ v', (Server.system E).Reaches v v' ∧
      Shows E ((({ s with actor := a, ctx := c }).record [.polled w sel fut]).complete i reply)
        v' := by
  obtain ⟨held, hi, ht⟩ := h.turn
  rw [InTurn, hp] at ht
  obtain ⟨f, ws, rfl, hv, hd, hcur⟩ := ht
  have hdone : f.future.drive (ws ++ [w]) (v.actor, v.ctx) = (.inr reply, a, c) :=
    (Future.drive_snoc hd w).trans (timeoutFut_ok hw)
  refine Shows.turned (l := .serve (ws ++ [w])) (d := [])
    (u := { v with
      inbox := s.chan.queue
      actor := a
      ctx := c
      deeds := v.deeds ++ [.served i reply] }) ?_ ?_ rfl ⟨rfl, hv, rfl, rfl, hcur⟩
  · simp only [Server.step, Server.head_eq hv hi, Server.servedBy, hdone]
    rfl
  · show _ = deedsOf (s.trace ++ _ ++ _)
    rw [deedsOf_append, deedsOf_append, h.deeds, List.append_assoc]
    rfl

theorem taskOverran (h : Shows E s v) {i : ℕ} {w : A.World} {sel : Select} {fut : TaskFuture A}
    {a : A.State} {c : A.Ctx} (hp : s.phase = .task i fut)
    (hw : timeoutFut E.taskTimeout sel w fut s.actor s.ctx = (.timeout, a, c)) :
    ∃ v', (Server.system E).Reaches v v' ∧
      Shows E ((({ s with actor := a, ctx := c }).record [.polled w sel fut]).overrun E i) v' := by
  obtain ⟨held, hi, ht⟩ := h.turn
  rw [InTurn, hp] at ht
  obtain ⟨f, ws, rfl, hv, hd, hcur⟩ := ht
  obtain ⟨hT, hpoll⟩ := timeoutFut_overran hw
  obtain ⟨n, hT⟩ := Option.ne_none_iff_exists'.mp hT
  -- the poll in which the delay is over first does not reach the task
  obtain ⟨us, fut', hdone⟩ : ∃ us fut', f.future.drive us (v.actor, v.ctx) = (.inl fut', a, c) := by
    rcases hpoll with hpoll | ⟨fut', hpoll⟩
    · exact ⟨ws, fut, hpoll ▸ hd⟩
    · exact ⟨ws ++ [w], fut', (Future.drive_snoc hd w).trans hpoll⟩
  refine Shows.turned (l := .giveUp us) (d := [])
    (u := { v with
      inbox := s.chan.queue
      actor := a
      ctx := c
      stage := if E.config.failOnTimeout then .done (.err .timeout) else .serving
      deeds := v.deeds ++ [.gaveUp i] }) ?_ ?_ rfl ?_
  · simp only [Server.step, Server.head_eq hv hi, Server.gaveUpBy, hdone, hT]
    rfl
  · show _ = deedsOf (s.trace ++ _ ++ _)
    rw [deedsOf_append, deedsOf_append, h.deeds, List.append_assoc]
    rfl
  · unfold InTurn Sys.overrun
    cases E.config.failOnTimeout with
    | false => exact ⟨rfl, rfl, rfl, rfl, hcur⟩
    | true => rfl

theorem itemPending (h : Shows E s v) {x : A.Item} {w : A.World} {fut fut' : A.Fut}
    {a : A.State} {c : A.Ctx} (hp : s.phase = .item x fut)
    (hw : A.poll w fut s.actor s.ctx = (.inl fut', a, c)) :
    ∃ v', (Server.system E).Reaches v v' ∧
      Shows E { ({ s with actor := a, ctx := c }).record [.itemPolled w fut] with
        phase := .item x fut' } v' := by
  obtain ⟨held, hi, ht⟩ := h.turn
  rw [InTurn, hp] at ht
  obtain ⟨items, ws, rfl, hv, hs, hx, hcur, hd⟩ := ht
  refine Shows.stays ?_ hi ⟨items, ws ++ [w], rfl, hv, hs, hx, hcur, ?_⟩
  · exact h.silent rfl
  · exact (Future.drive_snoc hd w).trans hw

theorem itemDone (h : Shows E s v) {x : A.Item} {w : A.World} {fut : A.Fut} {r : A.Response}
    {a : A.State} {c : A.Ctx} (hp : s.phase = .item x fut)
    (hw : A.poll w fut s.actor s.ctx = (.inr r, a, c)) :
    ∃ v', (Server.system E).Reaches v v' ∧
      Shows E (({ s with actor := a, ctx := c, phase := .receiving }).record
        [.itemPolled w fut, .itemHandled x]) v' := by
  obtain ⟨held, hi, ht⟩ := h.turn
  rw [InTurn, hp] at ht
  obtain ⟨items, ws, rfl, hv, hs, hx, hcur, hd⟩ := ht
  have hdone : A.drive (ws ++ [w]) (A.handleItem x) (v.actor, v.ctx) = (.inr r, a, c) :=
    (Future.drive_snoc hd w).trans hw
  refine Shows.turned (l := .item (ws ++ [w])) (d := [])
    (u := { v with
      cursor := v.cursor + 1
      actor := a
      ctx := c
      deeds := v.deeds ++ [.handled x] }) ?_ ?_ hi ⟨rfl, hv, rfl, rfl, hcur.symm⟩
  · simp only [Server.step, Server.next_eq hv hs, hx, Server.handledBy, hdone]
    rfl
  · show _ = deedsOf (s.trace ++ _)
    rw [deedsOf_append, h.deeds]
    rfl

/-- **A crash in the middle of a turn leaves no trace of it**: the server crashes before it. -/
theorem crash (h : Shows E s v) {o : Exit A} (ho : o = .panicked ∨ o = .dropped)
    (hs : s.suspended = true) :
    ∃ v', (Server.system E).Reaches v v' ∧ v'.actor = v.actor ∧ v'.ctx = v.ctx ∧
      Shows E (s.crash o) v' := by
  obtain ⟨held, hi, ht⟩ := h.turn
  -- what is suspended is in a turn, and its server in front of it
  have hv : v.stage = .starting ∨ v.stage = .serving := by
    unfold InTurn at ht
    unfold Sys.suspended at hs
    split at ht
    case h_3 => exact .inr ht.choose_spec.choose_spec.2.1
    all_goals simp_all
  refine ⟨{ v with stage := .done o }, ?_, rfl, rfl, ?_⟩
  · rcases ho with rfl | rfl
    · refine .single (l := .panic) ?_
      rcases hv with hv | hv <;> simp only [Server.system, Server.step, hv]
    · refine .single (l := .drop) ?_
      rcases hv with hv | hv <;> simp only [Server.system, Server.step, hv]
  · refine ⟨?_, held, ?_, ?_⟩ <;> unfold Sys.crash <;> split
    · exact h.deeds
    · exact h.deeds
    · exact hi
    · exact hi
    · rfl
    · rfl

theorem notify (h : Shows E s v) {o : Exit A} (hp : s.phase = .leaving o) :
    ∃ v', (Server.system E).Reaches v v' ∧ Shows E (s.notify o) v' := by
  obtain ⟨held, hi, ht⟩ := h.turn
  rw [InTurn, hp] at ht
  exact Shows.stays (h.silent rfl) hi ht

theorem dropContext (h : Shows E s v) (hd : s.dropsContext = true) :
    ∃ v', (Server.system E).Reaches v v' ∧ Shows E s.dropContext v' := by
  obtain ⟨held, hi, ht⟩ := h.turn
  refine Shows.stays h.deeds hi ?_
  obtain ⟨o, hp | hp⟩ := Sys.phase_of_dropsContext hd <;>
  · rw [InTurn, hp] at ht
    rwa [InTurn, Sys.dropContext_phase, hp]

theorem release (h : Shows E s v) {o : Exit A} (hp : s.phase = .releasing o) :
    ∃ v', (Server.system E).Reaches v v' ∧ Shows E (s.release o) v' := by
  obtain ⟨held, hi, ht⟩ := h.turn
  rw [InTurn, hp] at ht
  refine Shows.turned (l := .release) (d := []) (u := { v with
    inbox := [], stage := .gone o, deeds := v.deeds ++ [.released] }) ?_ ?_ rfl ⟨rfl, rfl⟩
  · simp only [Server.step, ht]
  · show _ = deedsOf (s.trace ++ _)
    rw [deedsOf_append, h.deeds]
    rfl

theorem loop (h : Shows E s v) (hq : .mailboxEnd ∈ s.trace → s.chan.queue = [])
    {es : List (Event A)} (hl : s.LoopStep E t es) :
    ∃ v', (Server.system E).Reaches v v' ∧ Shows E t v' := by
  have htail : ∀ {e q}, s.chan.queue = e :: q → s.chan.queue = [e] ++ s.chan.advance.queue := by
    intro e q hq
    rw [Mpsc.advance_queue, hq]
    rfl
  -- a turn of the server for each step that ends one, none for the others
  cases hl with
  | startOk w es a c u hp hw => exact h.startOk w hp hw
  | startErr w es e a c hp hw => exact h.startErr w hp hw
  | refreshStop w i hp hR => exact h.refreshStop w hp hR
  | recreate w i hp hR => exact h.recreate w hp hR
  | finishing w hp => exact h.finishing w hp
  | stopping w hp => exact h.stopping w hp hq
  | takeTask es e q f hr hqe hf =>
    obtain ⟨hp, hes⟩ := hr.events
    refine h.takes hp rfl (by rcases hes with rfl | rfl <;> rfl) (htail hqe) ?_
    rintro hv ⟨ha, hc, hcur⟩
    exact ⟨f, [], by rw [← hf], hv, by rw [ha, hc]; rfl, hcur⟩
  | takeStop es e q hr hqe hf =>
    obtain ⟨hp, hes⟩ := hr.events
    have he : e = ⟨e.id, .stop⟩ := by rw [← hf]
    exact h.leaves hp rfl (by rcases hes with rfl | rfl <;> rfl) (htail hqe) rfl rfl rfl rfl
      (he ▸ .stop e.id)
  | takeRestart e q hp hs hqe hf hR =>
    refine h.takes hp rfl rfl (htail hqe) fun hv hag => ?_
    exact ⟨by rw [← hf], hv, hs, hR, hag⟩
  | ignoreRestart e q hp hs hqe hf hR =>
    refine h.restartRefused (z := .serving) (l := [.refreshed e.id]) hp hqe hf ?_ rfl ?_
    · have hv := (h.received hp).2.1
      simp only [Server.refused, hs, hR, ← hv]
    · exact fun hag => ⟨rfl, rfl, hag⟩
  | restartPanic es e q hr hs hqe hf =>
    obtain ⟨hp, hes⟩ := hr.events
    obtain ⟨items, hs⟩ := Option.ne_none_iff_exists'.mp hs
    refine h.restartRefused (z := .done .panicked) (l := []) hp hqe hf ?_ ?_ fun _ => rfl
    · simp only [Server.refused, hs, List.append_nil]
    · rcases hes with rfl | rfl <;> rfl
  | mailboxEnd es hr hqe hc =>
    obtain ⟨hp, hes⟩ := hr.events
    refine h.leaves (d := []) hp rfl (by rcases hes with rfl | rfl <;> rfl) rfl rfl rfl rfl rfl
      (.hangUp ?_)
    rw [Sys.record_trace]
    simp
  | takeItem items x hp hs hx =>
    refine h.takes (d := []) hp rfl rfl rfl ?_
    rintro hv ⟨ha, hc, hcur⟩
    refine ⟨items, [], rfl, hv, hs, hcur ▸ hx, ?_, by rw [ha, hc]; rfl⟩
    rw [hcur]
    rfl
  | streamEnd items hp hs hx =>
    refine h.leaves (d := []) hp rfl rfl rfl ?_ rfl rfl rfl (.streamEnd items hs hx)
    rw [Environment.afterLoop, hs]
    rfl
  | streamPending hp hs =>
    refine h.takes (d := []) hp rfl rfl rfl fun hv hag => ?_
    rw [InTurn, Sys.record_phase, hp]
    exact ⟨rfl, hv, hag⟩
  | taskPending i w sel fut fut' a c hp hw => exact h.taskPending hp hw
  | taskDone i w sel fut reply a c hp hw => exact h.taskDone hp hw
  | taskOverran i w sel fut a c hp hw => exact h.taskOverran hp hw
  | itemPending x w fut fut' a c hp hw => exact h.itemPending hp hw
  | itemDone x w fut r a c hp hw => exact h.itemDone hp hw
  | crash o ho hs =>
    obtain ⟨v', hv', -, -, hsh⟩ := h.crash (ho.imp And.left id) hs
    exact ⟨v', hv', hsh⟩
  | notify o hp => exact h.notify hp
  | dropContext hd => exact h.dropContext hd
  | release o hp => exact h.release hp

end Shows

namespace Environment.Reachable

variable {a : A.State} {c : A.Ctx}

theorem shows (h : E.Reachable a c s) :
    ∃ v, (Server.system E).Reaches (Server.spawn a c) v ∧ Shows E s v := by
  have hstep : ∀ s l t v, E.Reachable a c s ∧ Shows E s v → E.system.step s l = some t →
      ∃ v', (Server.system E).Reaches v v' ∧ E.Reachable a c t ∧ Shows E t v' := by
    rintro s l t v ⟨hs, hv⟩ hst
    have ht : E.Reachable a c t := hs.trans (.single hst)
    obtain ⟨es, hes⟩ := step_cases hst
    suffices hsh : ∃ v', (Server.system E).Reaches v v' ∧ Shows E t v' by
      obtain ⟨v', hv', hsh⟩ := hsh
      exact ⟨v', hv', ht, hsh⟩
    rcases hes.outside with ⟨ho, he⟩ | ⟨-, hl⟩
    · exact hv.outside hs.receiverHeld ho he
    · refine hv.loop (fun hm => ?_) hl
      -- the mailbox had ended, and nothing was accepted since
      have hqueue := hs.queued hl.not_ended
      rw [(hs.drained hm).2] at hqueue
      exact List.self_eq_append_right.mp hqueue
  obtain ⟨v, hv, -, hsh⟩ := Machine.simulation (R := fun s v => E.Reachable a c s ∧ Shows E s v)
    hstep (t := Server.spawn a c)
    ⟨.refl _ _, rfl, [], rfl, by exact ⟨rfl, rfl, rfl, rfl, rfl⟩⟩ h
  exact ⟨v, hv, hsh⟩

end Environment.Reachable

end Simulation

/-- **Turns are atomic.**  Whatever interleaving an actor went through, a server that
takes one turn at a time accepted, served, gave up and handled the same in the same order.
Between two turns of the actor both have the same values and the same inbox, and if the
actor has ended the server has in the same way. -/
theorem turns_atomic {E : Environment A} {a : A.State} {c : A.Ctx} {s : Sys A}
    (h : E.Reachable a c s) :
    ∃ v, (Server.system E).Reaches (Server.spawn a c) v ∧ v.deeds = deedsOf s.trace ∧
      (s.phase = .receiving → v.stage = .serving ∧ v.inbox = s.chan.queue ∧ v.actor = s.actor ∧
        v.ctx = s.ctx ∧ v.cursor = s.cursor) ∧
      ∀ o, s.phase = .ended o → v.stage = .gone o := by
  obtain ⟨v, hv, hsh⟩ := h.shows
  refine ⟨v, hv, hsh.deeds, fun hp => ?_, fun o hp => ?_⟩
  · obtain ⟨hi, hst, hag⟩ := hsh.received hp
    exact ⟨hst, hi, hag⟩
  · obtain ⟨held, -, ht⟩ := hsh.turn
    rw [InTurn, hp] at ht
    exact ht.2

/-- A call that is polled twice, with a message that arrives between the two polls. -/
theorem turns_atomic_of_call : ∃ s v, Patient.plain.system.run (Patient.spawn Patient.plain)
      [.op (.begin (.call (1 : ℕ)) 0), .op (.push 0), .loop (.hook ()), .loop .recv,
        .loop (.pollTask () ⟨false, false⟩), .op (.begin (.forceSend (2 : ℕ)) 0), .op (.push 1),
        .loop (.pollTask () ⟨false, false⟩)] = some s ∧
      (Server.system Patient.plain).Reaches (Server.spawn (0 : ℕ) ()) v ∧
      v.deeds = deedsOf s.trace ∧ v.inbox.length = 1 ∧ v.actor = (1 : ℕ) := by
  obtain ⟨v, hv, hd, hp, -⟩ := turns_atomic (E := Patient.plain) (a := (0 : ℕ)) (c := ())
    ⟨[.op (.begin (.call (1 : ℕ)) 0), .op (.push 0), .loop (.hook ()), .loop .recv,
      .loop (.pollTask () ⟨false, false⟩), .op (.begin (.forceSend (2 : ℕ)) 0), .op (.push 1),
      .loop (.pollTask () ⟨false, false⟩)], rfl⟩
  obtain ⟨-, hi, ha, -, -⟩ := hp rfl
  exact ⟨_, v, rfl, hv, hd, by rw [hi]; rfl, by rw [ha]; rfl⟩

end Hannibal
