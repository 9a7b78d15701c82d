/-
Timers that run beside their actor.

The future of a timer sleeps, upgrades its weak sender, holds the strong one until
its message is sent and goes back to sleep.  `Timed` is an actor together with the
futures of the timers in its context; a send of a timer is an operation of the
actor like any other.  A future goes on while it is polled only, and `Abortable` looks
at the abort flag before a poll and behind it.

* `Timed.Further` — what the sends of the timers still add to the mailbox;
* `timers_put_one_more` — behind the last strong handle outside the timers each of
  them puts at most one more message into the mailbox, as long as none wakes while
  another one's send is in progress;
* `not_timers_put_one_more` — two timers whose sends overlap keep each other going.
-/
import Hannibal.Contexts
import Hannibal.Announcement

namespace Hannibal

variable {B : Behaviour}

/-! ### The futures of the timers -/

/-- Where the future of a timer is suspended: in `A::sleep`, in the send that is the
operation `j`, or nowhere any more. -/
inductive TimerPhase where
  | sleeping
  | sending (j : ℕ)
  | done
  | aborted
  deriving DecidableEq, Repr

/-- What a timer does with its weak sender when it wakes for the `n`-th time:
`try_force_send` in `interval`, `try_send` in the other two. -/
def TimerTask.method (x : TimerTask B.Message) (n : ℕ) : Method B.actor :=
  match x.kind with
  | .interval => .forceSend (x.messageFn n)
  | .intervalWith => .send (x.messageFn n)
  | .delayedSend => .send (x.messageFn n)

/-- The future has neither completed nor been dropped. -/
def TimerPhase.unfinished : TimerPhase → Bool
  | .sleeping => true
  | .sending _ => true
  | _ => false

/-- An actor and its timers.  `phases i` belongs to the `i`-th timer of the context, which
is being polled where `polled i`; `sends` lists in order which timer began which operation. -/
structure Timed (B : Behaviour) where
  sys : Sys B.actor
  phases : ℕ → TimerPhase
  polled : ℕ → Bool
  sends : List (ℕ × ℕ)

inductive TimedLabel (B : Behaviour) where
  | sys (l : Label B.actor)
  | poll (i : ℕ)
  | pend (i : ℕ)
  | wake (i : ℕ)
  | resume (i : ℕ)
  | abort (i : ℕ)

def TimedLabel.isWake : TimedLabel B → Bool
  | .wake _ => true
  | _ => false

/-- The operation runs on a handle that a weak one was upgraded to. -/
def Access.isOwned : Access → Bool
  | .owned _ => true
  | _ => false

/-- `self.upgrade.upgrade()` in `WeakSender::try_send` and `try_force_send`, and the
start of the send. -/
def Sys.trySend {A : Actor} (s : Sys A) (m : Method A) : Sys A :=
  match s.arcs.upgrade .weakSender with
  | some k => s.beginOp m (.owned k)
  | none => s.refuseOp m

namespace Timed

def init (E : Environment B.actor) (a : B.State) : Timed B :=
  ⟨E.init a Context.new, fun _ => .sleeping, fun _ => false, []⟩

def setPhase (x : Timed B) (i : ℕ) (p : TimerPhase) : Timed B :=
  { x with phases := Function.update x.phases i p }

def setPolled (x : Timed B) (i : ℕ) (b : Bool) : Timed B :=
  { x with polled := Function.update x.polled i b }

/-- The timer `i` has begun its next send. -/
def woken (x : Timed B) (i : ℕ) (t : Sys B.actor) : Timed B :=
  { x with
    sys := t
    phases := Function.update x.phases i (.sending x.sys.ops.length)
    sends := x.sends ++ [(i, x.sys.ops.length)] }

/-- A step of the actor would move the send of a timer that is not polled, or drop the send
of one; nobody but the timer has its future. -/
def outOfTurn (x : Timed B) : Label B.actor → Bool
  | .op (.push j) => x.sends.any fun p => p.2 = j && !x.polled p.1
  | .op (.flush j) => x.sends.any fun p => p.2 = j && !x.polled p.1
  | .op (.respond j) => x.sends.any fun p => p.2 = j && !x.polled p.1
  | .op (.drop j) => x.sends.any fun p => p.2 = j
  | _ => false

/-- A poll of the timer `i` begins.  `Abortable` does not poll an aborted future. -/
def poll (x : Timed B) (i : ℕ) : Option (Timed B) :=
  match x.sys.context.tasks[i]? with
  | some task =>
    if (x.phases i).unfinished && !x.polled i && !task.aborted then some (x.setPolled i true)
    else none
  | none => none

/-- The future of the timer `i` cannot go on: it sleeps, waits for room in the mailbox, or
is done. -/
def rests (x : Timed B) (i : ℕ) : Bool :=
  match x.phases i with
  | .sending j =>
    match (x.sys.ops[j]?).map Op.state with
    | some .flushing => true
    | _ => false
  | _ => true

/-- The poll of the timer `i` is over. -/
def pend (x : Timed B) (i : ℕ) : Option (Timed B) :=
  if x.polled i && x.rests i then some (x.setPolled i false) else none

/-- The sleep of the timer `i` is over when it is polled. -/
def wake (x : Timed B) (i : ℕ) : Option (Timed B) :=
  match x.sys.context.tasks[i]?, x.phases i with
  | some task, .sleeping =>
    if x.polled i then
      let n := (x.sends.filter fun p => p.1 = i).length
      some (x.woken i (x.sys.trySend (task.method n)))
    else none
  | _, _ => none

/-- The send of the timer `i` returned: after an error the future is done. -/
def resume (x : Timed B) (i : ℕ) : Option (Timed B) :=
  match x.sys.context.tasks[i]?, x.phases i with
  | some task, .sending j =>
    match x.polled i, (x.sys.ops[j]?).map Op.state with
    | true, some (.returned (.ok _)) =>
      match task.kind with
      | .interval => some (x.setPhase i .sleeping)
      | .intervalWith => some (x.setPhase i .sleeping)
      | .delayedSend => some (x.setPhase i .done)
    | true, some (.returned (.error _)) => some (x.setPhase i .done)
    | _, _ => none
  | _, _ => none

/-- The future of an aborted timer is dropped where it is suspended, between two polls. -/
def abort (x : Timed B) (i : ℕ) : Option (Timed B) :=
  match x.sys.context.tasks[i]?, x.phases i with
  | some task, .sleeping =>
    if task.aborted && !x.polled i then some (x.setPhase i .aborted) else none
  | some task, .sending j =>
    if task.aborted && !x.polled i then
      (x.sys.opStep (.drop j)).map fun t => { x.setPhase i .aborted with sys := t }
    else none
  | _, _ => none

def step (E : Environment B.actor) (x : Timed B) : TimedLabel B → Option (Timed B)
  | .sys l => if x.outOfTurn l then none else (E.step x.sys l).map fun t => { x with sys := t }
  | .poll i => x.poll i
  | .pend i => x.pend i
  | .wake i => x.wake i
  | .resume i => x.resume i
  | .abort i => x.abort i

/-- All interleavings of an actor and its timers. -/
def system (E : Environment B.actor) : Machine (Timed B) (TimedLabel B) := ⟨step E⟩

def Reachable (E : Environment B.actor) (a : B.State) (x : Timed B) : Prop :=
  (system E).Reaches (init E a) x

/-- How many of the messages in a history are the timer's. -/
def put (x : Timed B) (i : ℕ) (t : List (Event B.actor)) : ℕ :=
  (accepted t).countP fun e => (i, e.id) ∈ x.sends

/-- What was recorded since `x`. -/
def since (x y : Timed B) : List (Event B.actor) := y.sys.trace.drop x.sys.trace.length

/-- The operation `j` is the send some timer is in. -/
def isSend (x : Timed B) (j : ℕ) : Bool :=
  x.sends.any fun p => p.2 = j && x.phases p.1 = .sending j

/-- A strong handle exists that no send of a timer upgraded to. -/
def heldOutside (x : Timed B) : Bool :=
  (x.sys.handles.any fun hd => hd.alive && hd.kind.strong) ||
    x.sys.ops.zipIdx.any fun p => p.1.state.live && p.1.access.isOwned && !x.isSend p.2

/-- The send of a timer is in progress. -/
def busy (x : Timed B) : Bool :=
  x.sys.ops.zipIdx.any fun p => p.1.state.live && x.isSend p.2

end Timed

/-! ### What a step can do -/

theorem Sys.trySend_step {A : Actor} (E : Environment A) (s : Sys A) {m : Method A}
    (ho : HandleKind.weakSender.offers m = true) : ∃ es, E.Step s (s.trySend m) es := by
  unfold Sys.trySend
  split
  · next k hk => exact ⟨_, .op _ (.upgraded m .weakSender k hk ho)⟩
  · exact ⟨_, .op _ (.refused m)⟩

theorem TimerTask.offers (x : TimerTask B.Message) (n : ℕ) :
    HandleKind.weakSender.offers (x.method n) = true := by
  unfold TimerTask.method
  cases x.kind <;> rfl

namespace Timed

/-- The timers' part of a step. -/
inductive Step (E : Environment B.actor) (x : Timed B) : TimedLabel B → Timed B → Prop where
  | sys (l : Label B.actor) (t : Sys B.actor) (h : E.step x.sys l = some t) :
      Step E x (.sys l) { x with sys := t }
  | poll (i : ℕ) (task : TimerTask B.Message) (hp : x.polled i = false)
      (ht : x.sys.context.tasks[i]? = some task) (ha : task.aborted = false) :
      Step E x (.poll i) (x.setPolled i true)
  | pend (i : ℕ) (hp : x.polled i = true) (hr : x.rests i = true) :
      Step E x (.pend i) (x.setPolled i false)
  | wake (i : ℕ) (task : TimerTask B.Message) (n : ℕ) (hp : x.phases i = .sleeping)
      (ht : x.sys.context.tasks[i]? = some task) (ha : x.polled i = true) :
      Step E x (.wake i) (x.woken i (x.sys.trySend (task.method n)))
  | resume (i j : ℕ) (o : Op B.actor) (r : Except ActorError (Option (Reply B.actor)))
      (p : TimerPhase) (hp : x.phases i = .sending j) (ho : x.sys.ops[j]? = some o)
      (hr : o.state = .returned r) (hn : ∀ j', p ≠ .sending j') :
      Step E x (.resume i) (x.setPhase i p)
  | abortSleep (i : ℕ) (hp : x.phases i = .sleeping) (task : TimerTask B.Message)
      (ht : x.sys.context.tasks[i]? = some task) : Step E x (.abort i) (x.setPhase i .aborted)
  | abortSend (i j : ℕ) (t : Sys B.actor) (hp : x.phases i = .sending j)
      (h : E.step x.sys (.op (.drop j)) = some t) :
      Step E x (.abort i) { x.setPhase i .aborted with sys := t }

theorem step_cases {E : Environment B.actor} {x y : Timed B} {l : TimedLabel B}
    (h : (system E).step x l = some y) : Step E x l y := by
  cases l with
  | sys l =>
    simp only [system, step] at h
    split at h
    · cases h
    · obtain ⟨t, ht, rfl⟩ := Option.map_eq_some_iff.mp h
      exact .sys l t ht
  | poll i =>
    simp only [system, step, poll] at h
    split at h
    · next task ht =>
      split at h
      · next hc =>
        cases h
        simp only [Bool.and_eq_true, Bool.not_eq_true'] at hc
        exact .poll i task hc.1.2 ht hc.2
      · cases h
    · cases h
  | pend i =>
    simp only [system, step, pend] at h
    split at h
    · next hc =>
      cases h
      rw [Bool.and_eq_true] at hc
      exact .pend i hc.1 hc.2
    · cases h
  | wake i =>
    simp only [system, step, wake] at h
    split at h
    · next task ht hp =>
      split at h
      · next ha =>
        cases h
        exact .wake i task _ hp ht ha
      · cases h
    · cases h
  | resume i =>
    simp only [system, step, resume] at h
    split at h
    · next task j ht hp =>
      split at h
      · next r _ hr =>
        obtain ⟨o, ho, hst⟩ := Option.map_eq_some_iff.mp hr
        split at h <;> cases h <;> exact .resume i j o _ _ hp ho hst (by simp)
      · next e _ hr =>
        obtain ⟨o, ho, hst⟩ := Option.map_eq_some_iff.mp hr
        cases h
        exact .resume i j o _ _ hp ho hst (by simp)
      · cases h
    · cases h
  | abort i =>
    simp only [system, step, abort] at h
    split at h
    · next task ht hp =>
      split at h
      · cases h
        exact .abortSleep i hp task ht
      · cases h
    · next task j ht hp =>
      split at h
      · obtain ⟨t, hst, rfl⟩ := Option.map_eq_some_iff.mp h
        exact .abortSend i j t hp hst
      · cases h
    · cases h

/-- A step of the timers is one of the actor, or does not touch it. -/
theorem Step.sys_step {E : Environment B.actor} {x y : Timed B} {l : TimedLabel B}
    (h : Step E x l y) : y.sys = x.sys ∨ ∃ es, E.Step x.sys y.sys es := by
  cases h with
  | sys l t h => exact .inr (Environment.step_cases h)
  | wake i task n => exact .inr (Sys.trySend_step E x.sys (task.offers n))
  | poll | pend | resume | abortSleep => exact .inl rfl
  | abortSend i j t hp h => exact .inr (Environment.step_cases h)

end Timed

/-! ### What is still to be sent -/

section Actor

variable {A : Actor}

def OpState.isBegun : OpState A → Bool
  | .begun => true
  | _ => false

namespace Sys

/-- The operation `j` has not pushed its payload yet. -/
def unsent (s : Sys A) (j : ℕ) : Bool := (s.ops[j]?).any fun o => o.state.isBegun

theorem unsent_lt {s : Sys A} {j : ℕ} (h : s.unsent j = true) : j < s.ops.length := by
  unfold unsent at h
  by_cases hj : j < s.ops.length
  · exact hj
  · rw [List.getElem?_eq_none (by omega)] at h
    cases h

theorem unsent_of_state {s : Sys A} {j : ℕ} {o : Op A} (ho : s.ops[j]? = some o) :
    s.unsent j = o.state.isBegun := by
  rw [unsent, ho]
  rfl

/-- What a step does to the payloads that are still to be sent: it pushes none, or the
one of the operation `k`. -/
inductive Pushes (s t : Sys A) (es : List (Event A)) : Prop where
  | none (he : accepted es = []) (hu : ∀ j < s.ops.length, t.unsent j = true → s.unsent j = true)
  | one (k : ℕ) (o : Op A) (he : accepted es = [envelope k o]) (hk : s.unsent k = true)
      (hk' : t.unsent k = false)
      (hu : ∀ j < s.ops.length, t.unsent j = true → s.unsent j = true)

theorem Pushes.unsent {s t : Sys A} {es : List (Event A)} (h : s.Pushes t es) :
    ∀ j < s.ops.length, t.unsent j = true → s.unsent j = true := by
  cases h with
  | none he hu => exact hu
  | one k o he hk hk' hu => exact hu

theorem afterPush_isBegun (m : Method A) : m.afterPush.isBegun = false := by
  cases m <;> rfl

theorem Moves.isBegun {s : Sys A} {i : ℕ} {o : Op A} {st : OpState A} (h : s.Moves i o st) :
    st.isBegun = false := by
  cases h with
  | flushed =>
    unfold Method.afterFlush
    split <;> rfl
  | _ => rfl

theorem unsent_congr {s t : Sys A} (h : t.ops = s.ops) (j : ℕ) : t.unsent j = s.unsent j := by
  rw [unsent, unsent, h]

/-- An operation that is moved on to where it is sent leaves the others as they are. -/
theorem unsent_set {s t : Sys A} {k : ℕ} {o o' : Op A} (ho : s.ops[k]? = some o)
    (ht : t.ops = s.ops.set k o') (ho' : o'.state.isBegun = false) :
    t.unsent k = false ∧ ∀ j, t.unsent j = true → s.unsent j = true := by
  have hlt := (List.getElem?_eq_some_iff.mp ho).1
  have hk : t.unsent k = false := by
    rw [unsent, ht, List.getElem?_set_self hlt]
    exact ho'
  refine ⟨hk, fun j hj => ?_⟩
  by_cases hjk : k = j
  · subst hjk
    rw [hk] at hj
    cases hj
  · rw [unsent, ht, List.getElem?_set_ne hjk] at hj
    exact hj

end Sys

theorem Environment.Step.pushes {E : Environment A} {s t : Sys A} {es : List (Event A)}
    (h : E.Step s t es) : s.ops.length ≤ t.ops.length ∧ s.Pushes t es := by
  rcases h.outside with ⟨-, he⟩ | ⟨-, hl⟩
  · have hacc := he.accepted
    cases he with
    | idle es hsrc ho hq =>
      refine ⟨ho ▸ le_refl _, .none ?_ fun j _ hj => (Sys.unsent_congr ho j) ▸ hj⟩
      exact accepted_eq_nil fun e hmem => by
        have := hsrc _ hmem
        simp [Event.source] at this
    | add o hst ho hq =>
      refine ⟨by simp [ho], .none (Sys.accepted_returnEvents _ _) fun j hj hu => ?_⟩
      rwa [Sys.unsent, ho, List.getElem?_append_left hj] at hu
    | accept k o hk hst hr ho hq =>
      obtain ⟨hn, hu⟩ := Sys.unsent_set hk ho (Sys.afterPush_isBegun o.method)
      refine ⟨by simp [ho], .one k o ?_ ?_ hn fun j _ => hu j⟩
      · exact congrArg (_ :: ·) (Sys.accepted_returnEvents _ _)
      · rw [Sys.unsent_of_state hk, hst]
        rfl
    | move k o st hk hm ho hq =>
      have ho : t.ops = s.ops.set k { o with state := st } := ho
      obtain ⟨-, hu⟩ := Sys.unsent_set hk ho hm.isBegun
      exact ⟨by simp [ho], .none (Sys.accepted_returnEvents _ _) fun j _ => hu j⟩
  · have ho := hl.untouched.ops
    refine ⟨ho ▸ le_refl _, .none ?_ fun j _ hj => (Sys.unsent_congr ho j) ▸ hj⟩
    exact accepted_eq_nil fun e hmem => by
      have := hl.source _ hmem
      simp [Event.source] at this

end Actor

namespace Timed

variable {E : Environment B.actor} {x y : Timed B}

/-- Whose sends the operations are. -/
structure Owned (x : Timed B) : Prop where
  bound : ∀ p ∈ x.sends, p.2 < x.sys.ops.length
  unique : ∀ p ∈ x.sends, ∀ q ∈ x.sends, p.2 = q.2 → p.1 = q.1
  unsent : ∀ p ∈ x.sends, x.sys.unsent p.2 = true → x.phases p.1 = .sending p.2
  sending : ∀ i j, x.phases i = .sending j → (i, j) ∈ x.sends

/-- The timer `i` is about to push a message. -/
def pending (x : Timed B) (i : ℕ) : ℕ :=
  match x.phases i with
  | .sending j => if x.sys.unsent j then 1 else 0
  | _ => 0

theorem pending_le_one (x : Timed B) (i : ℕ) : x.pending i ≤ 1 := by
  unfold pending
  split
  · split <;> omega
  · omega

theorem owned_init (E : Environment B.actor) (a : B.State) : (init E a).Owned where
  bound := by simp [init]
  unique := by simp [init]
  unsent := by simp [init]
  sending := by simp [init]

/-- A step of the actor keeps the timers and their sends apart. -/
theorem Owned.sys (h : x.Owned) {t : Sys B.actor} {es : List (Event B.actor)}
    (hst : E.Step x.sys t es) : Owned { x with sys := t } := by
  obtain ⟨hlen, hpush⟩ := hst.pushes
  exact ⟨fun p hp => (h.bound p hp).trans_le hlen, h.unique,
    fun p hp ht => h.unsent p hp (hpush.unsent _ (h.bound p hp) ht), h.sending⟩

theorem Owned.setPolled (h : x.Owned) (i : ℕ) (b : Bool) : (x.setPolled i b).Owned :=
  ⟨h.bound, h.unique, h.unsent, h.sending⟩

/-- A timer that is not about to push may be set to another phase. -/
theorem Owned.setPhase (h : x.Owned) {i : ℕ} {p : TimerPhase} (hp : ∀ j, p ≠ .sending j)
    (hn : x.pending i = 0) : (x.setPhase i p).Owned := by
  refine ⟨h.bound, h.unique, fun q hq hu => ?_, fun k j hk => ?_⟩
  · have hphase := h.unsent q hq hu
    by_cases hqi : q.1 = i
    · -- its send would not have been pushed
      rw [hqi] at hphase
      have hu' : x.sys.unsent q.2 = true := hu
      simp [pending, hphase, hu'] at hn
    · show Function.update x.phases i p q.1 = _
      rw [Function.update_of_ne hqi]
      exact hphase
  · have hk' : Function.update x.phases i p k = .sending j := hk
    by_cases hki : k = i
    · subst hki
      rw [Function.update_self] at hk'
      exact absurd hk' (hp j)
    · rw [Function.update_of_ne hki] at hk'
      exact h.sending k j hk'

/-- Waking adds an operation of its own to the sends. -/
theorem Owned.wake (h : x.Owned) {t : Sys B.actor} (i : ℕ) (hi : x.phases i = .sleeping)
    {es : List (Event B.actor)} (hst : E.Step x.sys t es)
    (hlen : t.ops.length = x.sys.ops.length + 1) : (x.woken i t).Owned := by
  have hsys := h.sys hst
  have hold : ∀ p ∈ x.sends, p.2 < x.sys.ops.length := h.bound
  refine ⟨?_, ?_, ?_, ?_⟩
  · intro p hp
    show p.2 < t.ops.length
    rcases List.mem_append.mp hp with hp | hp
    · have := hold p hp
      omega
    · rw [List.mem_singleton.mp hp]
      show x.sys.ops.length < _
      omega
  · intro p hp q hq hpq
    rcases List.mem_append.mp hp with hp | hp <;> rcases List.mem_append.mp hq with hq | hq
    · exact h.unique p hp q hq hpq
    · rw [List.mem_singleton.mp hq] at hpq
      exact absurd hpq (hold p hp).ne
    · rw [List.mem_singleton.mp hp] at hpq
      exact absurd hpq.symm (hold q hq).ne
    · rw [List.mem_singleton.mp hp, List.mem_singleton.mp hq]
  · intro p hp hu
    show Function.update x.phases i _ p.1 = _
    rcases List.mem_append.mp hp with hp | hp
    · have hphase := hsys.unsent p hp hu
      have hpi : p.1 ≠ i := by
        rintro rfl
        rw [show x.phases p.1 = .sending p.2 from hphase] at hi
        cases hi
      rw [Function.update_of_ne hpi]
      exact hphase
    · rw [List.mem_singleton.mp hp, Function.update_self]
  · intro k j hk
    have hk' : Function.update x.phases i (.sending x.sys.ops.length) k = .sending j := hk
    by_cases hki : k = i
    · subst hki
      rw [Function.update_self] at hk'
      cases hk'
      exact List.mem_append_right _ List.mem_cons_self
    · rw [Function.update_of_ne hki] at hk'
      exact List.mem_append_left _ (h.sending k j hk')

theorem pending_eq_zero {i : ℕ} (h : ∀ j, x.phases i = .sending j → x.sys.unsent j = false) :
    x.pending i = 0 := by
  unfold pending
  split
  · next j hj => simp [h j hj]
  · rfl

/-- A send of a timer that is unsent behind a step of the actor was unsent before it. -/
theorem Owned.pending_sys_le (h : x.Owned) {t : Sys B.actor}
    (hu : ∀ j < x.sys.ops.length, t.unsent j = true → x.sys.unsent j = true) (i : ℕ) :
    pending { x with sys := t } i ≤ x.pending i := by
  unfold pending
  show (match x.phases i with
    | .sending j => if t.unsent j then 1 else 0
    | _ => 0) ≤ _
  cases hi : x.phases i with
  | sending j =>
    have hj := h.bound _ (h.sending i j hi)
    show (if t.unsent j then 1 else 0) ≤ if x.sys.unsent j then 1 else 0
    by_cases ht : t.unsent j = true
    · rw [if_pos ht, if_pos (hu j hj ht)]
    · rw [if_neg ht]
      exact Nat.zero_le _
  | _ => exact le_refl _

theorem pending_setPhase_le (x : Timed B) (i k : ℕ) {p : TimerPhase} (hp : ∀ j, p ≠ .sending j) :
    (x.setPhase i p).pending k ≤ x.pending k := by
  by_cases hki : k = i
  · subst hki
    refine (pending_eq_zero fun j hj => ?_).le.trans (Nat.zero_le _)
    have hj' : Function.update x.phases k p k = .sending j := hj
    rw [Function.update_self] at hj'
    exact absurd hj' (hp j)
  · unfold pending
    show (match Function.update x.phases i p k with
      | .sending j => if x.sys.unsent j then 1 else 0
      | _ => 0) ≤ _
    rw [Function.update_of_ne hki]

/-- Another timer that wakes adds an operation of its own. -/
theorem Owned.pending_woken (h : x.Owned) {t : Sys B.actor} {o : Op B.actor}
    (ho : t.ops = x.sys.ops ++ [o]) {i k : ℕ} (hki : k ≠ i) :
    (x.woken i t).pending k = x.pending k := by
  unfold pending
  show (match Function.update x.phases i _ k with
    | .sending j => if t.unsent j then 1 else 0
    | _ => 0) = _
  rw [Function.update_of_ne hki]
  cases hk : x.phases k with
  | sending j =>
    have hj := h.bound _ (h.sending k j hk)
    show (if t.unsent j then 1 else 0) = if x.sys.unsent j then 1 else 0
    rw [Sys.unsent, Sys.unsent, ho, List.getElem?_append_left hj]
  | _ => rfl

end Timed

theorem Sys.trySend_length {A : Actor} (s : Sys A) (m : Method A) :
    (s.trySend m).ops.length = s.ops.length + 1 := by
  unfold Sys.trySend
  split <;> exact List.length_append

/-- A weak sender that is tried adds an operation; the mailbox is not touched. -/
theorem Sys.trySend_adds {A : Actor} (s : Sys A) (m : Method A) :
    (∃ o, o.method = m ∧ (s.trySend m).ops = s.ops ++ [o]) ∧ (s.trySend m).ctx = s.ctx ∧
      (s.trySend m).chan.parked = s.chan.parked := by
  unfold Sys.trySend
  split
  · exact ⟨⟨_, rfl, rfl⟩, rfl, rfl⟩
  · exact ⟨⟨_, rfl, rfl⟩, rfl, rfl⟩

theorem Sys.unsent_of_drop {A : Actor} {s t : Sys A} {j : ℕ} (h : s.opStep (.drop j) = some t) :
    t.unsent j = false := by
  simp only [Sys.opStep] at h
  split at h
  · next o ho =>
    split at h
    · cases h
      exact (Sys.unsent_set ho rfl rfl).1
    · cases h
  · cases h

namespace Timed

variable {E : Environment B.actor} {x y : Timed B} {l : TimedLabel B}

theorem Owned.step (h : x.Owned) (hst : Step E x l y) : y.Owned := by
  cases hst with
  | sys l t ht =>
    obtain ⟨es, ht⟩ := Environment.step_cases ht
    exact h.sys ht
  | poll | pend => exact h.setPolled _ _
  | wake i task n hp =>
    obtain ⟨es, ht⟩ := Sys.trySend_step E x.sys (task.offers n)
    exact h.wake i hp ht (Sys.trySend_length _ _)
  | resume i j o r p hp ho hr hn =>
    refine h.setPhase hn (pending_eq_zero fun k hk => ?_)
    rw [hp] at hk
    cases hk
    rw [Sys.unsent_of_state ho, hr]
    rfl
  | abortSleep i hp =>
    refine h.setPhase (by simp) (pending_eq_zero fun k hk => ?_)
    rw [hp] at hk
    cases hk
  | abortSend i j t hp ht =>
    have hgone := Sys.unsent_of_drop ht
    obtain ⟨es, ht⟩ := Environment.step_cases ht
    refine (h.sys ht).setPhase (by simp) (pending_eq_zero fun k hk => ?_)
    rw [show x.phases i = .sending k from hk] at hp
    cases hp
    exact hgone

/-- What the steps of the actor preserve holds along the runs of the actor with its timers. -/
theorem sys_invariant {P : Sys B.actor → Prop} (hstep : ∀ s t es, P s → E.Step s t es → P t)
    (h : (system E).Reaches x y) (hx : P x.sys) : P y.sys := by
  refine Machine.invariant (P := fun x : Timed B => P x.sys) (fun x l y hx hst => ?_) hx h
  rcases (step_cases hst).sys_step with hy | ⟨es, hs⟩
  · exact hy ▸ hx
  · exact hstep _ _ es hx hs

namespace Reachable

variable {a : B.State}

theorem next (h : Reachable E a x) (hst : (system E).step x l = some y) : Reachable E a y :=
  h.trans (.single hst)

theorem counted (h : Reachable E a x) : x.sys.Counted :=
  sys_invariant (fun _ _ _ hs hst => hs.step hst) h (Sys.counted_init E a Context.new)

theorem owned (h : Reachable E a x) : x.Owned :=
  Machine.invariant (P := Owned) (fun _ _ _ hx hst => hx.step (step_cases hst)) (owned_init E a) h

end Reachable

/-! ### The last messages of the timers -/

/-- With no strong handle outside and no send in progress, no weak sender upgrades. -/
theorem not_strongHandle (ho : x.heldOutside = false) (hb : x.busy = false) :
    ¬ x.sys.StrongHandle := by
  simp only [heldOutside, Bool.or_eq_false_iff, List.any_eq_false] at ho
  rw [busy, List.any_eq_false] at hb
  rintro (⟨hd, hmem, hal, hst⟩ | ⟨o, hmem, hl, k, ha⟩)
  · exact ho.1 hd hmem (by simp [hal, hst])
  · obtain ⟨j, hj⟩ := List.getElem?_of_mem hmem
    have hzip : (o, j) ∈ x.sys.ops.zipIdx := List.mem_zipIdx_iff_getElem?.mpr hj
    have hout := ho.2 _ hzip
    have hbusy := hb _ hzip
    simp only [hl, ha, Access.isOwned, Bool.true_and] at hout hbusy
    simp [hbusy] at hout

/-- A timer that wakes then is refused. -/
theorem trySend_refused (hc : x.sys.Counted) (ho : x.heldOutside = false) (hb : x.busy = false)
    (m : Method B.actor) : x.sys.trySend m = x.sys.refuseOp m := by
  have htx : ¬ 0 < x.sys.arcs.tx := fun h => not_strongHandle ho hb (hc.tx_pos.mp h)
  rw [Sys.trySend, Arcs.upgrade, if_neg fun h => htx h.1]

/-- What the timers have put into the mailbox since `x`, and may still put, is at most
what they were about to put in `x`. -/
structure Further (x y : Timed B) (u : List (Event B.actor)) : Prop where
  trace : y.sys.trace = x.sys.trace ++ u
  bound : ∀ e ∈ accepted u, e.id < y.sys.ops.length
  count : ∀ i, y.put i u + y.pending i ≤ x.pending i

theorem Further.refl (x : Timed B) : x.Further x [] where
  trace := (List.append_nil _).symm
  bound := by simp [accepted]
  count i := by simp [put, accepted]

theorem put_append (y : Timed B) (i : ℕ) (u v : List (Event B.actor)) :
    y.put i (u ++ v) = y.put i u + y.put i v := by
  rw [put, accepted_append, List.countP_append]
  rfl

/-- Pushing a message takes it out of what its timer was about to put. -/
theorem Further.sys {u : List (Event B.actor)} (h : x.Further y u) (hy : y.Owned)
    {t : Sys B.actor} {es : List (Event B.actor)} (hst : E.Step y.sys t es) :
    x.Further { y with sys := t } (u ++ es) := by
  obtain ⟨hlen, hpush⟩ := hst.pushes
  refine ⟨by rw [hst.trace, h.trace, List.append_assoc], ?_, fun i => ?_⟩
  · intro e he
    rw [accepted_append, List.mem_append] at he
    show e.id < t.ops.length
    rcases he with he | he
    · exact (h.bound e he).trans_le hlen
    · cases hpush with
      | none hes hu =>
        rw [hes] at he
        cases he
      | one k o hes hk hk' hu =>
        rw [hes, List.mem_singleton] at he
        rw [he]
        exact (Sys.unsent_lt hk).trans_le hlen
  · have hcount := h.count i
    rw [put_append]
    show y.put i u + y.put i es + _ ≤ _
    cases hpush with
    | none hes hu =>
      have := hy.pending_sys_le hu i
      rw [show y.put i es = 0 by rw [put, hes]; rfl]
      omega
    | one k o hes hk hk' hu =>
      have hle := hy.pending_sys_le hu i
      by_cases hik : (i, k) ∈ y.sends
      · -- the timer's own message: it was pending and is not any more
        have hphase := hy.unsent _ hik hk
        have hbefore : y.pending i = 1 := by simp [pending, hphase, hk]
        have hafter : pending { y with sys := t } i = 0 :=
          pending_eq_zero fun j hj => by
            rw [show y.phases i = .sending j from hj] at hphase
            cases hphase
            exact hk'
        have hput : y.put i es ≤ 1 := by
          rw [put, hes]
          exact List.countP_le_length
        omega
      · have hput : y.put i es = 0 := by
          rw [put, hes]
          simp [Sys.envelope, hik]
        omega

theorem Further.setPolled {u : List (Event B.actor)} (h : x.Further y u) (i : ℕ) (b : Bool) :
    x.Further (y.setPolled i b) u := ⟨h.trace, h.bound, h.count⟩

theorem Further.setPhase {u : List (Event B.actor)} (h : x.Further y u) (i : ℕ) {p : TimerPhase}
    (hp : ∀ j, p ≠ .sending j) : x.Further (y.setPhase i p) u where
  trace := h.trace
  bound := h.bound
  count k := by
    have hcount := h.count k
    have hpending := y.pending_setPhase_le i k hp
    show y.put k u + _ ≤ _
    omega

/-- A timer that is refused when it wakes puts nothing. -/
theorem Further.wake {u : List (Event B.actor)} (h : x.Further y u) (hy : y.Owned) (i : ℕ)
    (m : Method B.actor) :
    x.Further (y.woken i (y.sys.refuseOp m))
      (u ++ [.began y.sys.ops.length, .returned y.sys.ops.length (.error .alreadyStopped)]) := by
  have hops : (y.sys.refuseOp m).ops =
      y.sys.ops ++ [⟨m, .detached, .returned (.error .alreadyStopped)⟩] := rfl
  refine ⟨?_, ?_, fun k => ?_⟩
  · show y.sys.trace ++ _ = _
    rw [h.trace, List.append_assoc]
  · intro e he
    rw [accepted_append, List.mem_append] at he
    show e.id < (y.sys.refuseOp m).ops.length
    rw [hops, List.length_append]
    rcases he with he | he
    · have := h.bound e he
      omega
    · cases he
  · have hcount := h.count k
    -- what was accepted is older than the refused send
    have hput : (y.woken i (y.sys.refuseOp m)).put k (u ++ [.began y.sys.ops.length,
        .returned y.sys.ops.length (.error .alreadyStopped)]) = y.put k u := by
      rw [put_append, show put (y.woken i (y.sys.refuseOp m)) k [.began y.sys.ops.length,
        .returned y.sys.ops.length (.error .alreadyStopped)] = 0 from rfl, Nat.add_zero, put, put]
      refine List.countP_congr fun e he => ?_
      have hlt := h.bound e he
      have hne : ¬ (k = i ∧ e.id = y.sys.ops.length) := by omega
      simp [woken, hne]
    have hpending : (y.woken i (y.sys.refuseOp m)).pending k ≤ y.pending k := by
      by_cases hki : k = i
      · subst hki
        refine (pending_eq_zero fun j hj => ?_).le.trans (Nat.zero_le _)
        have hj' : Function.update y.phases k (.sending y.sys.ops.length) k = .sending j := hj
        rw [Function.update_self] at hj'
        cases hj'
        show Sys.unsent (y.sys.refuseOp m) _ = false
        rw [Sys.unsent, hops]
        simp [OpState.isBegun]
      · exact (hy.pending_woken hops hki).le
    rw [hput]
    omega

end Timed

/-! ### Timers are registered before they send -/

/-- A step only adds calls to the context. -/
theorem Environment.Step.ctx_eq {E : Environment B.actor} {s t : Sys B.actor}
    {es : List (Event B.actor)} (h : E.Step s t es) :
    ∃ l, t.ctx = Context.performAll s.ctx l := by
  rcases h.outside with ⟨ho, -⟩ | ⟨-, hl⟩
  · exact ⟨[], ho.ctx⟩
  · have hk := hl.feeds (k := ⟨s.actor, s.ctx, s.phase.fut⟩) ⟨rfl, rfl, fun _ => rfl⟩
    exact ⟨_, hk.ctx.symm.trans (Behaviour.replay_ctx E _ _)⟩

theorem Sys.context_length (s : Sys B.actor) :
    s.context.tasks.length = (Context.tasks s.ctx).length := by
  unfold Sys.context
  split
  · exact List.length_map _
  · rfl

namespace Timed

variable {E : Environment B.actor} {x y : Timed B} {l : TimedLabel B}

theorem task_lt {i : ℕ} {task : TimerTask B.Message} (ht : x.sys.context.tasks[i]? = some task) :
    i < (Context.tasks x.sys.ctx).length := by
  rw [← Sys.context_length]
  exact (List.getElem?_eq_some_iff.mp ht).1

/-- Only timers of the context have sent. -/
def Known (x : Timed B) : Prop := ∀ p ∈ x.sends, p.1 < (Context.tasks x.sys.ctx).length

theorem Known.step (h : x.Known) (hst : Step E x l y) :
    y.Known ∧ (Context.tasks x.sys.ctx).length ≤ (Context.tasks y.sys.ctx).length := by
  have hlen : (Context.tasks x.sys.ctx).length ≤ (Context.tasks y.sys.ctx).length := by
    rcases hst.sys_step with hy | ⟨es, hs⟩
    · rw [hy]
    · obtain ⟨calls, hcalls⟩ := hs.ctx_eq
      rw [hcalls, Context.performAll_tasks, List.length_append]
      omega
  have hold : ∀ p ∈ x.sends, p.1 < (Context.tasks y.sys.ctx).length :=
    fun p hp => (h p hp).trans_le hlen
  refine ⟨?_, hlen⟩
  cases hst with
  | wake i task n hp ht =>
    intro p hmem
    rcases List.mem_append.mp hmem with hmem | hmem
    · exact hold p hmem
    · rw [List.mem_singleton.mp hmem]
      exact (task_lt ht).trans_le hlen
  | sys | poll | pend | resume | abortSleep | abortSend => exact hold

theorem Reachable.known {a : B.State} (h : Reachable E a x) : x.Known :=
  Machine.invariant (P := Known) (fun _ _ _ hx hst => (hx.step (step_cases hst)).1)
    (fun p hp => by cases hp) h

end Timed

/-- **A timer adds at most one message once nothing else holds the actor**, in the runs in
which no timer wakes while the send of another one is in progress.  From `x` on there is no
strong handle but those of the timers' sends.  Timers that are registered later add none, and
where no send is under way the loop does not wait for more: it takes what is queued and then
the end of its mailbox. -/
theorem timers_put_one_more {E : Environment B.actor} {a : B.State} {x y : Timed B}
    (h : Timed.Reachable E a x) {ls : List (TimedLabel B)} (hout : x.heldOutside = false)
    (hrun : (Timed.system E).run x ls = some y)
    (halone : (Timed.system E).Along (fun _ _ z => z.heldOutside = false) x ls)
    (hc : (Timed.system E).Along (fun z l _ => l.isWake = true → z.busy = false) x ls) :
    (∀ i, y.put i (x.since y) ≤ 1) ∧
    (∀ i, (Context.tasks x.sys.ctx).length ≤ i → y.put i (x.since y) = 0) ∧
    (y.sys.phase = .receiving → y.busy = false → (∀ o ∈ y.sys.ops, o.pendingFuture = false) →
      y.sys.chan.pollNext ≠ .pending) := by
  have hstep : ∀ z l w, (Timed.Reachable E a z ∧ z.heldOutside = false ∧ ∃ u, x.Further z u) →
      ((l.isWake = true → z.busy = false) ∧ w.heldOutside = false) →
      (Timed.system E).step z l = some w →
      Timed.Reachable E a w ∧ w.heldOutside = false ∧ ∃ u, x.Further w u := by
    rintro z l w ⟨hz, hzout, u, hu⟩ ⟨hwake, hwout⟩ hst
    refine ⟨hz.next hst, hwout, ?_⟩
    cases Timed.step_cases hst with
    | sys l t ht =>
      obtain ⟨es, ht⟩ := Environment.step_cases ht
      exact ⟨_, hu.sys hz.owned ht⟩
    | poll i | pend i => exact ⟨u, hu.setPolled i _⟩
    | wake i task n hp =>
      rw [Timed.trySend_refused hz.counted hzout (hwake rfl)]
      exact ⟨_, hu.wake hz.owned i _⟩
    | resume i j o r p hp ho hr hn => exact ⟨u, hu.setPhase i hn⟩
    | abortSleep i hp => exact ⟨u, hu.setPhase i (by simp)⟩
    | abortSend i j t hp ht =>
      obtain ⟨es, ht⟩ := Environment.step_cases ht
      exact ⟨_, (hu.sys hz.owned ht).setPhase i (by simp)⟩
  obtain ⟨hy, hyout, u, hu⟩ := Machine.invariant_along hstep ⟨h, hout, [], Timed.Further.refl x⟩
    (Machine.along_and hc halone) hrun
  have hsince : x.since y = u := by rw [Timed.since, hu.trace, List.drop_left]
  rw [hsince]
  refine ⟨fun i => ?_, fun i hi => ?_, fun hp hb hf hpoll => ?_⟩
  · have hcount := hu.count i
    have hle := x.pending_le_one i
    omega
  · have hcount := hu.count i
    have hzero : x.pending i = 0 := by
      refine Timed.pending_eq_zero fun j hj => ?_
      have := h.known _ (h.owned.sending i j hj)
      exact absurd hi (by simpa using this)
    omega
  · -- the timers hold weak references only, so no sender is left
    have hbusy := hy.counted.contextBusy_receiving (by rw [hp]; rfl)
    have hsenders := (hy.counted.senders_eq_zero hbusy).mpr ⟨Timed.not_strongHandle hyout hb, hf⟩
    unfold Mpsc.pollNext at hpoll
    split at hpoll
    · cases hpoll
    · rw [if_pos hsenders] at hpoll
      cases hpoll

/-! ### Two timers -/

/-- Registers two timers when it starts; its handlers complete at once. -/
def twins : Behaviour where
  State := ℕ
  Error := Unit
  Message := Unit
  Response := Unit
  Item := Unit
  Fut := Unit
  World := Unit
  default := 0
  started _ a := (.ok (), a, [.intervalWith (fun _ => ()) 1, .intervalWith (fun _ => ()) 1])
  stopped _ a := (a, [])
  finished _ a := (a, [])
  handle m := m
  handleItem x := x
  poll _ _ a := (.inr (), a + 1, [])

namespace Twins

/-- A mailbox without room: every send waits until its message is taken. -/
def env : Environment twins.actor := ⟨some 0, ⟨none, false⟩, .restartOnly, none⟩

/-- The first timer waits for room when the only handle is dropped. -/
def dropped : List (TimedLabel twins) :=
  [.sys (.loop (.hook ())), .poll 0, .wake 0, .sys (.op (.push 0)), .pend 0,
    .sys (.handle (.drop 0))]

/-- The loop takes its message, the first timer sleeps again and finds the actor gone when it
wakes. -/
def apart : List (TimedLabel twins) :=
  [.sys (.loop .recv), .poll 0, .sys (.op (.flush 0)), .resume 0, .wake 0, .resume 0, .pend 0,
    .sys (.loop (.pollTask () ⟨false, false⟩))]

/-- The second timer wakes while the first one waits, the first one again while the second one
waits, and so on. -/
def inTurns : List (TimedLabel twins) :=
  [.poll 1, .wake 1, .sys (.op (.push 1)), .pend 1, .sys (.loop .recv), .poll 0,
    .sys (.op (.flush 0)), .resume 0, .wake 0, .sys (.op (.push 2)), .pend 0,
    .sys (.loop (.pollTask () ⟨false, false⟩)), .sys (.loop .recv), .poll 1,
    .sys (.op (.flush 1)), .resume 1, .wake 1, .sys (.op (.push 3)), .pend 1]

end Twins

/-- With one timer at a time the mailbox ends. -/
theorem timers_put_one_more_of_apart : ∃ x y : Timed twins,
    (Timed.system Twins.env).run (Timed.init Twins.env (0 : ℕ)) Twins.dropped = some x ∧
    (Timed.system Twins.env).run x Twins.apart = some y ∧
    ((∀ i, y.put i (x.since y) ≤ 1) ∧
    (∀ i, (Context.tasks x.sys.ctx).length ≤ i → y.put i (x.since y) = 0) ∧
    (y.sys.phase = .receiving → y.busy = false → (∀ o ∈ y.sys.ops, o.pendingFuture = false) →
      y.sys.chan.pollNext ≠ .pending)) := by
  refine ⟨_, _, rfl, rfl, timers_put_one_more (E := Twins.env) (a := (0 : ℕ))
    ⟨Twins.dropped, rfl⟩ rfl
    (show (Timed.system Twins.env).run _ Twins.apart = some _ from rfl)
    ⟨rfl, rfl, rfl, rfl, rfl, rfl, rfl, rfl, trivial⟩ ?_⟩
  exact ⟨by simp [TimedLabel.isWake], by simp [TimedLabel.isWake], by simp [TimedLabel.isWake],
    by simp [TimedLabel.isWake], fun _ => rfl, by simp [TimedLabel.isWake],
    by simp [TimedLabel.isWake], by simp [TimedLabel.isWake], trivial⟩

/-- Two timers whose sends overlap go on putting messages. -/
theorem not_timers_put_one_more : ¬ ∀ (x y : Timed twins) (ls : List (TimedLabel twins)),
    Timed.Reachable Twins.env (0 : ℕ) x → x.heldOutside = false →
    (Timed.system Twins.env).run x ls = some y →
    (Timed.system Twins.env).Along (fun _ _ z => z.heldOutside = false) x ls →
    ∀ i, y.put i (x.since y) ≤ 1 := by
  intro h
  exact absurd (h _ _ Twins.inTurns ⟨Twins.dropped, rfl⟩ rfl rfl
    ⟨rfl, rfl, rfl, rfl, rfl, rfl, rfl, rfl, rfl, rfl, rfl, rfl, rfl, rfl, rfl, rfl, rfl, rfl, rfl,
      trivial⟩ 1) (by decide)

end Hannibal
