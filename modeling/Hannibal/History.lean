/-
What the trace records about the mailbox.

Outside the event loop a step changes neither the loop nor the answers, and it
does one of four things to the operations (`Step.outside`); a step of the loop
takes the head of the queue, leaves it, or drops all of it
(`LoopStep.takes`).  From the two

* `Logged.ordered` — what was taken is a prefix of what was accepted, and up to
  the release of the receiver the queue is the rest;
* `Pushed` — what an operation has pushed was accepted, unless the operation was
  refused or dropped;
* `Enqueued.real_time` — an operation that returned before another one began
  comes first in the mailbox, whichever paths the two used.
-/
import Hannibal.Lists
import Hannibal.System

open scoped List

namespace Hannibal

variable {A : Actor}

/-- The loop's future is gone. -/
def Phase.isEnded : Phase A → Bool
  | .ended _ => true
  | _ => false

/-! ### Reading the trace -/

/-- Who records an event. -/
inductive Source where
  | op
  | loop
  | watch
  deriving DecidableEq, Repr

namespace Event

def source : Event A → Source
  | .began _ => .op
  | .accepted _ => .op
  | .returned _ _ => .op
  | .resolved _ _ => .watch
  | .joinPolled _ => .watch
  | .joined _ _ => .watch
  | _ => .loop

def accepted? : Event A → Option (Envelope A)
  | .accepted e => some e
  | _ => none

def taken? : Event A → Option (Envelope A)
  | .taken e => some e
  | _ => none

end Event

/-- The payloads in the order in which the mailbox accepted them. -/
def accepted (t : List (Event A)) : List (Envelope A) := t.filterMap Event.accepted?

/-- The payloads in the order in which the loop took them. -/
def taken (t : List (Event A)) : List (Envelope A) := t.filterMap Event.taken?

@[simp] theorem accepted_append (t u : List (Event A)) :
    accepted (t ++ u) = accepted t ++ accepted u := List.filterMap_append

@[simp] theorem taken_append (t u : List (Event A)) : taken (t ++ u) = taken t ++ taken u :=
  List.filterMap_append

@[simp] theorem mem_accepted {t : List (Event A)} {e : Envelope A} :
    e ∈ accepted t ↔ .accepted e ∈ t := by
  rw [accepted, List.mem_filterMap]
  constructor
  · rintro ⟨ev, hev, h⟩
    cases ev <;> cases h
    exact hev
  · exact fun h => ⟨_, h, rfl⟩

@[simp] theorem mem_taken {t : List (Event A)} {e : Envelope A} :
    e ∈ taken t ↔ .taken e ∈ t := by
  rw [taken, List.mem_filterMap]
  constructor
  · rintro ⟨ev, hev, h⟩
    cases ev <;> cases h
    exact hev
  · exact fun h => ⟨_, h, rfl⟩

theorem accepted_eq_nil {t : List (Event A)} (h : ∀ e, .accepted e ∉ t) : accepted t = [] :=
  List.eq_nil_iff_forall_not_mem.mpr fun e he => h e (mem_accepted.mp he)

theorem taken_eq_nil {t : List (Event A)} (h : ∀ e, .taken e ∉ t) : taken t = [] :=
  List.eq_nil_iff_forall_not_mem.mpr fun e he => h e (mem_taken.mp he)

/-! ### Steps outside the event loop -/

namespace Sys

/-- What a step outside the event loop leaves as it was. -/
structure Outside (s t : Sys A) (es : List (Event A)) : Prop where
  phase : t.phase = s.phase
  actor : t.actor = s.actor
  ctx : t.ctx = s.ctx
  ctxDropped : t.ctxDropped = s.ctxDropped
  incarnation : t.incarnation = s.incarnation
  cursor : t.cursor = s.cursor
  answers : t.answers = s.answers
  running : t.running = s.running ∨
    ∃ r, s.running.poll = .ready r ∧ t.running = s.running.complete r
  receiver : t.chan.receiver = s.chan.receiver
  trace : t.trace = s.trace ++ es
  source : ∀ ev ∈ es, ev.source ≠ .loop
  resolved : ∀ h r, .resolved h r ∈ es → s.running.poll = .ready r

/-- What it does to the operations and to the queue. -/
inductive Effect (s t : Sys A) : List (Event A) → Prop where
  | idle (es : List (Event A)) (he : ∀ ev ∈ es, ev.source = .watch) (ho : t.ops = s.ops)
      (hq : t.chan.queue = s.chan.queue) : Effect s t es
  | add (o : Op A) (hst : o.state = .begun ∨ o.state = .returned (.error .alreadyStopped))
      (ho : t.ops = s.ops ++ [o]) (hq : t.chan.queue = s.chan.queue) :
      Effect s t (.began s.ops.length :: returnEvents s.ops.length o.state)
  | accept (i : ℕ) (o : Op A) (hi : s.ops[i]? = some o) (hst : o.state = .begun)
      (hr : s.chan.receiver = true)
      (ho : t.ops = s.ops.set i { o with state := o.method.afterPush })
      (hq : t.chan.queue = s.chan.queue ++ [envelope i o]) :
      Effect s t (.accepted (envelope i o) :: returnEvents i o.method.afterPush)
  | move (i : ℕ) (o : Op A) (st : OpState A) (hi : s.ops[i]? = some o) (hm : s.Moves i o st)
      (ho : t.ops = s.ops.set i { o with state := st }) (hq : t.chan.queue = s.chan.queue) :
      Effect s t (returnEvents i st)

theorem mem_returnEvents {i : ℕ} {st : OpState A} {ev : Event A} :
    ev ∈ returnEvents i st ↔ ∃ r, st = .returned r ∧ ev = .returned i r := by
  cases st <;> simp [returnEvents]

theorem returnEvents_source {i : ℕ} {st : OpState A} {ev : Event A}
    (h : ev ∈ returnEvents i st) : ev.source = .op := by
  obtain ⟨r, -, rfl⟩ := mem_returnEvents.mp h
  rfl

theorem accepted_returnEvents (i : ℕ) (st : OpState A) : accepted (returnEvents i st) = [] := by
  cases st <;> rfl

theorem handleStep_outside {s t : Sys A} {l : HandleLabel} (h : s.handleStep l = some t) :
    s.Outside t [] ∧ s.Effect t [] := by
  have hnil : ∀ ev ∈ ([] : List (Event A)), ev.source = .watch := by simp
  obtain ⟨hs, ar, n, rfl⟩ := handleStep_frame h
  exact ⟨⟨rfl, rfl, rfl, rfl, rfl, rfl, rfl, .inl rfl, rfl, (List.append_nil _).symm, by simp,
    by simp⟩, .idle [] hnil rfl rfl⟩

theorem beginOp_outside (s : Sys A) (m : Method A) (x : Access) :
    s.Outside (s.beginOp m x) [.began s.ops.length] ∧
      s.Effect (s.beginOp m x) [.began s.ops.length] := by
  refine ⟨⟨rfl, rfl, rfl, rfl, rfl, rfl, rfl, .inl rfl, rfl, rfl, ?_, by simp⟩,
    .add ⟨m, x, .begun⟩ (.inl rfl) rfl rfl⟩
  simp [Event.source]

theorem opStep_outside {s t : Sys A} {es : List (Event A)} (h : s.OpStep t es) :
    s.Outside t es ∧ s.Effect t es := by
  cases h with
  | begin m i hd => exact s.beginOp_outside m _
  | upgraded m w k => exact s.beginOp_outside m _
  | context m => exact s.beginOp_outside m _
  | refused m =>
    refine ⟨⟨rfl, rfl, rfl, rfl, rfl, rfl, rfl, .inl rfl, rfl, rfl, ?_, by simp⟩,
      .add ⟨m, .detached, .returned (.error .alreadyStopped)⟩ (.inr rfl) rfl rfl⟩
    simp [Event.source]
  | push i o d ho hst hc =>
    obtain ⟨hr, hq, -, hr'⟩ := Mpsc.push_eq_some hc
    refine ⟨⟨rfl, rfl, rfl, rfl, rfl, rfl, rfl, .inl rfl, hr', rfl, fun ev hev => ?_, ?_⟩,
      .accept i o ho hst hr rfl hq⟩
    · rcases List.mem_cons.mp hev with rfl | hev
      · simp [Event.source]
      · simp [returnEvents_source hev]
    · simp [mem_returnEvents]
  | move i o st ho hm =>
    refine ⟨⟨rfl, rfl, rfl, rfl, rfl, rfl, rfl, .inl rfl, rfl, rfl, fun ev hev => ?_, ?_⟩,
      .move i o st ho hm rfl rfl⟩
    · simp [returnEvents_source hev]
    · simp [mem_returnEvents]

theorem watchStep_outside {s t : Sys A} {es : List (Event A)} (h : s.WatchStep t es) :
    s.Outside t es ∧ s.Effect t es := by
  cases h with
  | await i hd r hh hk hs hr =>
    refine ⟨⟨rfl, rfl, rfl, rfl, rfl, rfl, rfl, .inr ⟨r, hr, rfl⟩, rfl, rfl, ?_, ?_⟩,
      .idle _ ?_ rfl rfl⟩
    · simp [Event.source]
    · intro j q hmem
      rw [List.mem_singleton] at hmem
      cases hmem
      exact hr
    · simp [Event.source]
  | takeDone | take | empty | finish =>
    refine ⟨⟨rfl, rfl, rfl, rfl, rfl, rfl, rfl, .inl rfl, rfl, rfl, ?_, by simp⟩,
      .idle _ ?_ rfl rfl⟩ <;>
      simp [Event.source]
  | join | drop =>
    refine ⟨⟨rfl, rfl, rfl, rfl, rfl, rfl, rfl, .inl rfl, rfl, (List.append_nil _).symm, ?_,
      by simp⟩,
      .idle _ ?_ rfl rfl⟩ <;> simp

theorem Outside.inner {s t : Sys A} {es : List (Event A)} (h : s.Outside t es) :
    t.running.inner = s.running.inner := by
  rcases h.running with hr | ⟨r, -, hr⟩ <;> rw [hr]
  rfl

end Sys

/-- A step is one of the event loop or leaves the loop alone. -/
theorem Environment.Step.outside {E : Environment A} {s t : Sys A} {es : List (Event A)}
    (h : E.Step s t es) :
    s.Outside t es ∧ s.Effect t es ∨ s.contextBusy = false ∧ s.LoopStep E t es := by
  cases h with
  | handle l h => exact .inl (Sys.handleStep_outside h)
  | op es h => exact .inl (Sys.opStep_outside h)
  | loop es hb h => exact .inr ⟨hb, h⟩
  | watch es h => exact .inl (Sys.watchStep_outside h)

theorem Environment.Step.trace {E : Environment A} {s t : Sys A} {es : List (Event A)}
    (h : E.Step s t es) : t.trace = s.trace ++ es := by
  rcases h.outside with ⟨ho, -⟩ | ⟨-, hl⟩
  · exact ho.trace
  · exact hl.trace

/-- The operations move in their own steps. -/
theorem Environment.step_ops {E : Environment A} {s t : Sys A} {l : Label A}
    (h : E.step s l = some t) (hl : ∀ k, l ≠ .op k) : t.ops = s.ops := by
  cases l with
  | handle l =>
    obtain ⟨hs, ar, n, rfl⟩ := Sys.handleStep_frame h
    rfl
  | op l => exact absurd rfl (hl l)
  | loop l =>
    obtain ⟨-, es, hloop⟩ := Sys.loopStep_cases h
    exact hloop.untouched.ops
  | watch l =>
    obtain ⟨es, hw⟩ := Sys.watchStep_cases h
    cases hw <;> rfl

theorem Environment.reaches_trace {E : Environment A} {s t : Sys A} (h : E.system.Reaches s t) :
    s.trace <+: t.trace := by
  refine Machine.invariant (P := fun u : Sys A => s.trace <+: u.trace) (fun u l v hu hst => ?_)
    (List.prefix_refl _) h
  obtain ⟨es, hes⟩ := Environment.step_cases hst
  exact hes.trace ▸ hu.trans (List.prefix_append _ _)

/-! ### The queue and the order of acceptance -/

namespace Sys

theorem Receives.events {E : Environment A} {s : Sys A} {es : List (Event A)}
    (h : s.Receives E es) : s.phase = .receiving ∧ (es = [] ∨ es = [.streamPending]) := by
  cases h with
  | plain hp => exact ⟨hp, .inl rfl⟩
  | second hp => exact ⟨hp, .inr rfl⟩

/-- What a step of the loop does to the queue. -/
inductive Takes (s t : Sys A) (es : List (Event A)) : Prop where
  | none (hp : t.phase.isEnded = false) (hq : t.chan.queue = s.chan.queue)
      (hr : t.chan.receiver = s.chan.receiver) (he : taken es = [])
  | head (e : Envelope A) (hp : s.phase = .receiving) (hp' : t.phase.isEnded = false)
      (hq : s.chan.queue = e :: t.chan.queue) (hr : t.chan.receiver = s.chan.receiver)
      (he : taken es = [e])
  | all (hp : t.phase.isEnded = true) (hq : t.chan.queue = []) (hr : t.chan.receiver = false)
      (he : taken es = [])

theorem afterLoop_isEnded (E : Environment A) : E.afterLoop.isEnded = false := by
  unfold Environment.afterLoop
  split <;> rfl

theorem LoopStep.source {E : Environment A} {s t : Sys A} {es : List (Event A)}
    (h : s.LoopStep E t es) : ∀ ev ∈ es, ev.source = .loop := by
  cases h with
  | startOk w es a c u hp => cases hp <;> simp [Event.source]
  | takeTask es e q f hr | takeStop es e q hr | restartPanic es e q hr | mailboxEnd es hr =>
    obtain ⟨-, rfl | rfl⟩ := hr.events <;> simp [Event.source]
  | _ => simp [Event.source]

theorem LoopStep.takes {E : Environment A} {s t : Sys A} {es : List (Event A)}
    (h : s.LoopStep E t es) : s.Takes t es := by
  cases h with
  | takeTask es e q f hr hq | restartPanic es e q hr hs hq =>
    obtain ⟨hp, rfl | rfl⟩ := hr.events <;> exact .head e hp rfl (by simp [hq]) rfl rfl
  | takeStop es e q hr hq hf =>
    obtain ⟨hp, rfl | rfl⟩ := hr.events <;>
      exact .head e hp (afterLoop_isEnded E) (by simp [hq]) rfl rfl
  | takeRestart e q hp hs hq hf hR | ignoreRestart e q hp hs hq hf hR =>
    exact .head e hp rfl (by simp [hq]) rfl rfl
  | mailboxEnd es hr =>
    obtain ⟨hp, rfl | rfl⟩ := hr.events <;> exact .none (afterLoop_isEnded E) rfl rfl rfl
  | startOk w es a c u hp => cases hp <;> exact .none rfl rfl rfl rfl
  | streamPending hp => exact .none (congrArg Phase.isEnded hp) rfl rfl rfl
  | taskOverran i w sel fut =>
    refine .none ?_ rfl rfl rfl
    simp only [Sys.overrun, record_phase]
    split <;> rfl
  | crash o =>
    unfold Sys.crash
    split <;> exact .none rfl rfl rfl rfl
  | dropContext hd =>
    obtain ⟨o, hp | hp⟩ := phase_of_dropsContext hd <;>
      exact .none (congrArg Phase.isEnded hp) rfl rfl rfl
  | release o => exact .all rfl rfl rfl rfl
  | _ => exact .none rfl rfl rfl rfl

/-- The queue is what was accepted and not taken, until the receiver drops it. -/
structure Logged (s : Sys A) : Prop where
  queued : s.chan.receiver = true → accepted s.trace = taken s.trace ++ s.chan.queue
  ordered : taken s.trace <+: accepted s.trace
  dropped : s.chan.receiver = false → s.chan.queue = []

theorem Effect.accepted {s t : Sys A} {es : List (Event A)} (h : s.Effect t es) :
    (t.chan.queue = s.chan.queue ∧ accepted es = []) ∨
      s.chan.receiver = true ∧ ∃ e, t.chan.queue = s.chan.queue ++ [e] ∧ accepted es = [e] := by
  cases h with
  | idle es he ho hq =>
    refine .inl ⟨hq, accepted_eq_nil fun e hmem => ?_⟩
    have := he _ hmem
    simp [Event.source] at this
  | add o hst ho hq =>
    refine .inl ⟨hq, accepted_returnEvents _ _⟩
  | accept i o hi hst hr ho hq =>
    exact .inr ⟨hr, _, hq, congrArg (_ :: ·) (accepted_returnEvents _ _)⟩
  | move i o st hi hm ho hq => exact .inl ⟨hq, accepted_returnEvents _ _⟩

theorem Logged.step {E : Environment A} {s t : Sys A} {es : List (Event A)} (hs : s.Logged)
    (h : E.Step s t es) : t.Logged := by
  rcases h.outside with ⟨ho, he⟩ | ⟨-, hl⟩
  · have htk : taken es = [] := taken_eq_nil fun e hmem => ho.source _ hmem rfl
    refine ⟨?_, ?_, ?_⟩
    · rw [ho.receiver, ho.trace, accepted_append, taken_append, htk, List.append_nil]
      intro hr
      rcases he.accepted with ⟨hq, hac⟩ | ⟨-, e, hq, hac⟩
      · rw [hac, List.append_nil, hq, hs.queued hr]
      · rw [hac, hq, hs.queued hr, List.append_assoc]
    · rw [ho.trace, accepted_append, taken_append, htk, List.append_nil]
      exact hs.ordered.trans (List.prefix_append _ _)
    · rw [ho.receiver]
      intro hr
      rcases he.accepted with ⟨hq, -⟩ | ⟨hr', -⟩
      · rw [hq, hs.dropped hr]
      · rw [hr] at hr'
        cases hr'
  · have ht := hl.trace
    have hac : accepted es = [] := accepted_eq_nil fun e hmem => by
      have := hl.source _ hmem
      simp [Event.source] at this
    cases hl.takes with
    | none hp hq hr he =>
      refine ⟨?_, ?_, ?_⟩
      · rw [ht, accepted_append, taken_append, hac, he, List.append_nil, List.append_nil, hr, hq]
        exact hs.queued
      · rw [ht, accepted_append, taken_append, hac, he, List.append_nil, List.append_nil]
        exact hs.ordered
      · rw [hr, hq]
        exact hs.dropped
    | head e hp hp' hq hr he =>
      have hrec : s.chan.receiver = true := by
        cases hrec : s.chan.receiver with
        | true => rfl
        | false => simp [hs.dropped hrec] at hq
      have hall : accepted s.trace = taken s.trace ++ [e] ++ t.chan.queue := by
        rw [hs.queued hrec, hq, List.append_assoc]
        rfl
      refine ⟨?_, ?_, ?_⟩
      · rw [ht, accepted_append, taken_append, hac, he, List.append_nil, hall]
        exact fun _ => rfl
      · rw [ht, accepted_append, taken_append, hac, he, List.append_nil, hall]
        exact List.prefix_append _ _
      · rw [hr, hrec]
        exact fun h => by cases h
    | all hp hq hr he =>
      refine ⟨fun h => absurd (hr.symm.trans h) (by simp), ?_, fun _ => hq⟩
      rw [ht, accepted_append, taken_append, hac, he, List.append_nil, List.append_nil]
      exact hs.ordered

/-- Operations enqueue their own payload, at most once each, after they began
and before they return. -/
structure Enqueued (s : Sys A) : Prop where
  op : ∀ e ∈ accepted s.trace, ∃ o, s.ops[e.id]? = some o ∧ e.payload = o.method.payload ∧
    o.state ≠ .begun
  nodup : ((accepted s.trace).map Envelope.id).Nodup
  returned : ∀ i r, .returned i r ∈ s.trace → ∃ o, s.ops[i]? = some o ∧ o.state = .returned r
  after_began : ∀ e, Precedes s.trace (.began e.id) (.accepted e)
  before_returned : ∀ e r, Precedes s.trace (.accepted e) (.returned e.id r)

theorem afterPush_ne_begun (m : Method A) : m.afterPush ≠ .begun := by
  cases m <;> simp [Method.afterPush]

theorem Moves.ne_begun {s : Sys A} {i : ℕ} {o : Op A} {st : OpState A} (h : s.Moves i o st) :
    st ≠ .begun := by
  cases h with
  | flushed =>
    unfold Method.afterFlush
    split <;> simp
  | _ => simp

/-- An operation of the table after one of them moved on from a live state. -/
theorem getElem?_set_cases {ops : List (Op A)} {i j : ℕ} {o o' : Op A} (st : OpState A)
    (hi : ops[i]? = some o) (hj : ops[j]? = some o') :
    ∃ o'', (ops.set i { o with state := st })[j]? = some o'' ∧ o''.method = o'.method ∧
      (i = j ∧ o' = o ∧ o''.state = st ∨ i ≠ j ∧ o'' = o') := by
  by_cases hij : i = j
  · subst hij
    rw [hi, Option.some_inj] at hj
    subst hj
    exact ⟨_, List.getElem?_set_self (List.getElem?_eq_some_iff.mp hi).1, rfl, .inl ⟨rfl, rfl, rfl⟩⟩
  · exact ⟨o', by rwa [List.getElem?_set_ne hij], rfl, .inr ⟨hij, rfl⟩⟩

/-- An operation stays the operation it is. -/
theorem Effect.op {s t : Sys A} {es : List (Event A)} (h : s.Effect t es) {j : ℕ} {o : Op A}
    (hj : s.ops[j]? = some o) : ∃ o', t.ops[j]? = some o' ∧ o'.method = o.method := by
  cases h with
  | idle es he ho => exact ⟨o, ho ▸ hj, rfl⟩
  | add o' hst ho =>
    refine ⟨o, ?_, rfl⟩
    rw [ho, List.getElem?_append_left (List.getElem?_eq_some_iff.mp hj).1, hj]
  | accept i o' hi hst hr ho =>
    obtain ⟨o'', hj', hm, -⟩ := getElem?_set_cases o'.method.afterPush hi hj
    exact ⟨o'', ho ▸ hj', hm⟩
  | move i o' st hi hm ho =>
    obtain ⟨o'', hj', hm, -⟩ := getElem?_set_cases st hi hj
    exact ⟨o'', ho ▸ hj', hm⟩

/-- What holds of the operations of the table, of one that begins or is refused, of one that
has pushed and of one that moves on holds of the operations after the step. -/
theorem Effect.table {s t : Sys A} {es : List (Event A)} (h : s.Effect t es)
    {P : ℕ → Op A → Prop} (hold : ∀ (i : ℕ) (o : Op A), s.ops[i]? = some o → P i o)
    (hadd : ∀ (i : ℕ) (o : Op A),
      o.state = .begun ∨ o.state = .returned (.error .alreadyStopped) → P i o)
    (hpush : ∀ (i : ℕ) (o : Op A), .accepted (envelope i o) ∈ es →
      P i { o with state := o.method.afterPush })
    (hmove : ∀ (i : ℕ) (o : Op A) (st : OpState A), s.ops[i]? = some o → s.Moves i o st →
      P i { o with state := st }) :
    ∀ (i : ℕ) (o : Op A), t.ops[i]? = some o → P i o := by
  intro i o hi
  cases h with
  | idle es he ho => exact hold i o (ho ▸ hi)
  | add o' hst ho =>
    rw [ho, List.getElem?_append] at hi
    split at hi
    · exact hold i o hi
    · rw [List.getElem?_singleton] at hi
      split at hi
      · obtain rfl := Option.some_inj.mp hi
        exact hadd i _ hst
      · cases hi
  | accept j o' hj hst hr ho =>
    rw [ho] at hi
    rcases Table.getElem?_set_cases hi with ⟨rfl, rfl⟩ | ⟨-, hi⟩
    · exact hpush j o' List.mem_cons_self
    · exact hold i o hi
  | move j o' st hj hm ho =>
    rw [ho] at hi
    rcases Table.getElem?_set_cases hi with ⟨rfl, rfl⟩ | ⟨-, hi⟩
    · exact hmove j o' st hj hm
    · exact hold i o hi

/-- Nothing of the operations or the mailbox is recorded. -/
theorem Enqueued.frame {s t : Sys A} {es : List (Event A)} (hs : s.Enqueued)
    (ht : t.trace = s.trace ++ es) (he : ∀ ev ∈ es, ev.source ≠ .op) (ho : t.ops = s.ops) :
    t.Enqueued := by
  have hno : ∀ ev : Event A, ev.source = .op → ev ∉ es := fun ev hsrc hmem => he ev hmem hsrc
  have hac : accepted es = [] := accepted_eq_nil fun e => hno _ rfl
  refine ⟨?_, ?_, ?_, ?_, ?_⟩
  · rw [ht, accepted_append, hac, List.append_nil, ho]
    exact hs.op
  · rw [ht, accepted_append, hac, List.append_nil]
    exact hs.nodup
  · intro i r hmem
    rw [ht, List.mem_append, or_iff_left (hno _ rfl)] at hmem
    rw [ho]
    exact hs.returned i r hmem
  · intro e
    rw [ht]
    refine Precedes.append.mpr ⟨hs.after_began e, fun h => ?_, fun _ => hno _ rfl⟩
    exact hno (.began e.id) rfl (h.subset (by simp))
  · intro e r
    rw [ht]
    refine Precedes.append.mpr ⟨hs.before_returned e r, fun h => ?_, fun _ => hno _ rfl⟩
    exact hno (.accepted e) rfl (h.subset (by simp))

theorem Enqueued.add {s t : Sys A} {o : Op A} (hs : s.Enqueued)
    (ht : t.trace = s.trace ++ (.began s.ops.length :: returnEvents s.ops.length o.state))
    (ho : t.ops = s.ops ++ [o]) : t.Enqueued := by
  have hac : accepted (.began s.ops.length :: returnEvents s.ops.length o.state) = [] :=
    accepted_returnEvents _ _
  have hold : ∀ (i : ℕ) (o' : Op A), s.ops[i]? = some o' → t.ops[i]? = some o' := by
    intro i o' hi
    rw [ho, List.getElem?_append_left (List.getElem?_eq_some_iff.mp hi).1]
    exact hi
  have hlt : ∀ e ∈ accepted s.trace, e.id < s.ops.length := by
    intro e hmem
    obtain ⟨o', hi, -⟩ := hs.op e hmem
    exact (List.getElem?_eq_some_iff.mp hi).1
  refine ⟨?_, ?_, ?_, ?_, ?_⟩
  · rw [ht, accepted_append, hac, List.append_nil]
    intro e hmem
    obtain ⟨o', hi, hop⟩ := hs.op e hmem
    exact ⟨o', hold _ _ hi, hop⟩
  · rw [ht, accepted_append, hac, List.append_nil]
    exact hs.nodup
  · intro i r hmem
    rw [ht, List.mem_append, List.mem_cons, mem_returnEvents] at hmem
    rcases hmem with hmem | hmem | ⟨r', hst, hmem⟩
    · obtain ⟨o', hi, hop⟩ := hs.returned i r hmem
      exact ⟨o', hold _ _ hi, hop⟩
    · cases hmem
    · cases hmem
      exact ⟨o, by rw [ho, List.getElem?_concat_length], hst⟩
  · intro e
    rw [ht]
    refine Precedes.append.mpr ⟨hs.after_began e, fun h => ?_, fun hmem hbg => ?_⟩
    · have := h.subset (List.mem_cons_self ..)
      simp [mem_returnEvents] at this
    · simp only [List.mem_cons, Event.began.injEq, mem_returnEvents, reduceCtorEq, and_false,
        exists_false, or_false] at hbg
      have := hlt e (mem_accepted.mpr hmem)
      omega
  · intro e r
    rw [ht]
    refine Precedes.append.mpr ⟨hs.before_returned e r, fun h => ?_, fun _ => ?_⟩
    · have := h.subset (List.mem_cons_of_mem _ (List.mem_cons_self ..))
      simp [mem_returnEvents] at this
    · simp [mem_returnEvents]

theorem Enqueued.set {s t : Sys A} {i : ℕ} {o : Op A} {st : OpState A} {es : List (Event A)}
    (hs : s.Enqueued) (hi : s.ops[i]? = some o) (hl : o.state.live = true) (hst : st ≠ .begun)
    (hes : es = [] ∨ es = [.accepted (envelope i o)] ∧ o.state = .begun)
    (ht : t.trace = s.trace ++ (es ++ returnEvents i st))
    (ho : t.ops = s.ops.set i { o with state := st }) : t.Enqueued := by
  have hac : accepted t.trace = accepted s.trace ++ accepted es := by
    rw [ht, accepted_append, accepted_append, accepted_returnEvents, List.append_nil]
  have hnew : ∀ e, .accepted e ∈ es → e = envelope i o ∧ o.state = .begun := by
    rintro e hmem
    rcases hes with rfl | ⟨rfl, hb⟩
    · cases hmem
    · simpa [hb] using hmem
  have hfresh : o.state = .begun → ∀ e ∈ accepted s.trace, e.id ≠ i := by
    rintro hb e hmem rfl
    obtain ⟨o', hi', -, hne⟩ := hs.op e hmem
    rw [hi, Option.some_inj] at hi'
    exact hne (hi' ▸ hb)
  -- `o` is in progress, so it has not returned
  have hret : ∀ r, .returned i r ∉ s.trace := by
    intro r hmem
    obtain ⟨o', hi', hst'⟩ := hs.returned i r hmem
    rw [hi, Option.some_inj] at hi'
    rw [hi', hst'] at hl
    cases hl
  refine ⟨?_, ?_, ?_, ?_, ?_⟩
  · intro e hmem
    rw [hac, List.mem_append, mem_accepted (t := es)] at hmem
    rw [ho]
    rcases hmem with hmem | hmem
    · obtain ⟨o', hi', hp, hne⟩ := hs.op e hmem
      obtain ⟨o'', hi'', hm, ⟨-, -, hst'⟩ | ⟨-, rfl⟩⟩ := getElem?_set_cases st hi hi'
      · exact ⟨o'', hi'', hm ▸ hp, hst' ▸ hst⟩
      · exact ⟨o'', hi'', hp, hne⟩
    · obtain ⟨rfl, -⟩ := hnew e hmem
      exact ⟨_, List.getElem?_set_self (List.getElem?_eq_some_iff.mp hi).1, rfl, hst⟩
  · rw [hac, List.map_append]
    rcases hes with rfl | ⟨rfl, hb⟩
    · simpa [accepted] using hs.nodup
    · refine List.nodup_append.mpr ⟨hs.nodup, List.nodup_singleton _, ?_⟩
      intro j hj k hk
      obtain ⟨e, he, rfl⟩ := List.mem_map.mp hj
      rw [List.mem_singleton.mp hk]
      exact hfresh hb e he
  · intro j r hmem
    rw [ht, List.mem_append, List.mem_append, mem_returnEvents] at hmem
    rw [ho]
    rcases hmem with hmem | hmem | ⟨r', rfl, hmem⟩
    · obtain ⟨o', hi', hst'⟩ := hs.returned j r hmem
      obtain ⟨o'', hi'', -, ⟨rfl, -, -⟩ | ⟨-, rfl⟩⟩ := getElem?_set_cases st hi hi'
      · exact absurd hmem (hret r)
      · exact ⟨o'', hi'', hst'⟩
    · rcases hes with rfl | ⟨rfl, -⟩ <;> simp at hmem
    · cases hmem
      exact ⟨_, List.getElem?_set_self (List.getElem?_eq_some_iff.mp hi).1, rfl⟩
  · intro e
    have hbg : .began e.id ∉ es ++ returnEvents i st := by
      rcases hes with rfl | ⟨rfl, -⟩ <;> simp [mem_returnEvents]
    rw [ht]
    exact Precedes.append.mpr ⟨hs.after_began e, fun h => hbg (h.subset (by simp)), fun _ => hbg⟩
  · intro e r
    rw [ht]
    refine Precedes.append.mpr ⟨hs.before_returned e r, ?_, fun hmem hacc => ?_⟩
    · refine Precedes.append.mpr ⟨?_, ?_, fun _ => by simp [mem_returnEvents]⟩
      · rcases hes with rfl | ⟨rfl, -⟩
        · exact Precedes.nil
        · exact Precedes.singleton
      · intro h
        have := h.subset (List.mem_cons_of_mem _ (List.mem_cons_self ..))
        simp [mem_returnEvents] at this
    · rw [List.mem_append, mem_returnEvents] at hacc
      rcases hacc with hacc | ⟨r', -, hacc⟩
      · obtain ⟨rfl, -⟩ := hnew e hacc
        exact hret r hmem
      · cases hacc

theorem Enqueued.step {E : Environment A} {s t : Sys A} {es : List (Event A)} (hs : s.Enqueued)
    (h : E.Step s t es) : t.Enqueued := by
  rcases h.outside with ⟨ho, he⟩ | ⟨-, hl⟩
  · have ht := ho.trace
    cases he with
    | idle es he hops => exact hs.frame ht (fun ev hev => by simp [he ev hev]) hops
    | add o hst hops => exact hs.add ht hops
    | accept i o hi hst hr hops =>
      exact hs.set hi (by simp [hst, OpState.live]) (afterPush_ne_begun _) (.inr ⟨rfl, hst⟩) ht hops
    | move i o st hi hm hops => exact hs.set hi hm.live hm.ne_begun (.inl rfl) ht hops
  · exact hs.frame hl.trace (fun ev hev => by simp [hl.source ev hev]) hl.untouched.ops

/-- No payload was enqueued, or the operation returned one of its two refusals. -/
def Unsent (st : OpState A) : Prop :=
  st = .begun ∨ st = .returned (.error .asyncSendError) ∨ st = .returned (.error .alreadyStopped)

/-- The payload of an operation that has neither been refused nor been dropped is in the
mailbox or was taken, unless it is still to be pushed. -/
def Pushed (s : Sys A) : Prop :=
  ∀ (i : ℕ) (o : Op A), s.ops[i]? = some o →
    Unsent o.state ∨ o.state = .dropped ∨ ∃ e ∈ accepted s.trace, e.id = i

/-- What waits for room or for its response is in the mailbox or was taken. -/
theorem Pushed.waiting {s : Sys A} (hs : s.Pushed) {i : ℕ} {o : Op A} (hi : s.ops[i]? = some o)
    (hst : o.state = .flushing ∨ o.state = .awaiting) : ∃ e ∈ accepted s.trace, e.id = i := by
  rcases hs i o hi with hu | hd | he
  · rcases hst with hst | hst <;> simp [Unsent, hst] at hu
  · rcases hst with hst | hst <;> simp [hst] at hd
  · exact he

theorem Pushed.step {E : Environment A} {s t : Sys A} {es : List (Event A)} (hs : s.Pushed)
    (h : E.Step s t es) : t.Pushed := by
  have hac : accepted t.trace = accepted s.trace ++ accepted es := by
    rw [h.trace, accepted_append]
  have hold : ∀ {j : ℕ}, (∃ e ∈ accepted s.trace, e.id = j) → ∃ e ∈ accepted t.trace, e.id = j := by
    rintro j ⟨e, he, hid⟩
    exact ⟨e, hac ▸ List.mem_append_left _ he, hid⟩
  rcases h.outside with ⟨-, he⟩ | ⟨-, hl⟩
  · refine he.table (fun i o hi => (hs i o hi).imp_right (Or.imp_right hold))
      (fun i o hst => .inl (hst.imp_right .inr)) (fun i o hmem => ?_) fun i o st hi hm => ?_
    · exact .inr (.inr ⟨_, hac ▸ List.mem_append_right _ (mem_accepted.mpr hmem), rfl⟩)
    · cases hm with
      | refused => exact .inl (.inr (.inl rfl))
      | flushed hst => exact .inr (.inr (hold (hs.waiting hi (.inl hst))))
      | answered r hst => exact .inr (.inr (hold (hs.waiting hi (.inr hst))))
      | canceled hst => exact .inr (.inr (hold (hs.waiting hi (.inr hst))))
      | dropped => exact .inr (.inl rfl)
  · exact fun i o hi => (hs i o (hl.untouched.ops ▸ hi)).imp_right (Or.imp_right hold)

/-- What an operation returned is recorded. -/
def Recorded (s : Sys A) : Prop :=
  ∀ (i : ℕ) (o : Op A) (r : Except ActorError (Option (Reply A))), s.ops[i]? = some o →
    o.state = .returned r → .returned i r ∈ s.trace

theorem Recorded.step {E : Environment A} {s t : Sys A} {es : List (Event A)} (hs : s.Recorded)
    (h : E.Step s t es) : t.Recorded := by
  have ht := h.trace
  -- an operation that was there before
  have hold : ∀ {j : ℕ} {o : Op A} {r : Except ActorError (Option (Reply A))},
      s.ops[j]? = some o → o.state = .returned r → .returned j r ∈ t.trace := fun hj hr => by
    rw [ht]
    exact List.mem_append_left _ (hs _ _ _ hj hr)
  -- an operation that moves on
  have hset : ∀ {i : ℕ} {o : Op A} {st : OpState A}, returnEvents i st ⊆ es →
      t.ops = s.ops.set i { o with state := st } → t.Recorded := by
    intro i o st hsub ho j o' r hj hr
    rw [ho] at hj
    rcases Table.getElem?_set_cases hj with ⟨rfl, rfl⟩ | ⟨-, hj⟩
    · rw [ht]
      exact List.mem_append_right _ (hsub (mem_returnEvents.mpr ⟨r, hr, rfl⟩))
    · exact hold hj hr
  rcases h.outside with ⟨-, he⟩ | ⟨-, hl⟩
  · cases he with
    | idle es he ho =>
      intro j o r hj
      exact hold (ho ▸ hj)
    | add o hst ho =>
      intro j o' r hj hr
      rw [ho, List.getElem?_append] at hj
      split at hj
      · exact hold hj hr
      · rw [List.getElem?_singleton] at hj
        split at hj
        · next hlt hz =>
          cases hj
          have hjl : j = s.ops.length := by omega
          subst hjl
          rw [ht]
          exact List.mem_append_right _
            (List.mem_cons_of_mem _ (mem_returnEvents.mpr ⟨r, hr, rfl⟩))
        · cases hj
    | accept i o hi hst hr ho => exact hset (List.subset_cons_self _ _) ho
    | move i o st hi hm ho => exact hset (fun _ h => h) ho
  · intro j o r hj
    exact hold (hl.untouched.ops ▸ hj)

/-- **Real-time order.**  If one operation returned before another one began,
its payload stands first in the mailbox. -/
theorem Enqueued.real_time {s : Sys A} (hs : s.Enqueued) {e e' : Envelope A}
    {r : Except ActorError (Option (Reply A))} (he : e ∈ accepted s.trace)
    (he' : e' ∈ accepted s.trace) (h : [.returned e.id r, .began e'.id] <+ s.trace) :
    [e, e'] <+ accepted s.trace := by
  have hb : [Event.accepted e, .accepted e'] <+ s.trace :=
    Precedes.between (hs.before_returned e r) (hs.after_began e') h (mem_accepted.mp he)
      (mem_accepted.mp he')
  exact hb.filterMap Event.accepted?

theorem LoopStep.not_ended {E : Environment A} {s t : Sys A} {es : List (Event A)}
    (h : s.LoopStep E t es) : s.phase.isEnded = false := by
  cases h with
  | startOk w es a c u hp | startErr w es e a c hp => cases hp <;> simp_all [Phase.isEnded]
  | takeTask es e q f hr | takeStop es e q hr | restartPanic es e q hr | mailboxEnd es hr =>
    simp [hr.events.1, Phase.isEnded]
  | crash o ho hs =>
    cases hp : s.phase <;> simp [suspended, hp] at hs <;> rfl
  | dropContext hd => obtain ⟨o, hp | hp⟩ := phase_of_dropsContext hd <;> rw [hp] <;> rfl
  | _ => simp [*, Phase.isEnded]

/-- The receiver lives as long as the loop's future. -/
def ReceiverHeld (s : Sys A) : Prop := s.chan.receiver = !s.phase.isEnded

theorem ReceiverHeld.step {E : Environment A} {s t : Sys A} {es : List (Event A)}
    (hs : s.ReceiverHeld) (h : E.Step s t es) : t.ReceiverHeld := by
  unfold ReceiverHeld at hs ⊢
  rcases h.outside with ⟨ho, -⟩ | ⟨-, hl⟩
  · rw [ho.receiver, ho.phase, hs]
  · have hn := hl.not_ended
    cases hl.takes with
    | none hp hq hr => rw [hr, hs, hn, hp]
    | head e hp hp' hq hr => rw [hr, hs, hn, hp']
    | all hp hq hr => rw [hr, hp, Bool.not_true]

end Sys

namespace Environment.Reachable

variable {E : Environment A} {a : A.State} {c : A.Ctx} {s : Sys A}

theorem logged (h : E.Reachable a c s) : s.Logged :=
  reachable_induction ⟨fun _ => rfl, List.nil_prefix, fun h => by cases h⟩
    (fun _ _ _ _ _ hs hst => hs.step hst) h

theorem enqueued (h : E.Reachable a c s) : s.Enqueued := by
  refine reachable_induction
    ⟨?_, List.nodup_nil, ?_, fun _ => Precedes.nil, fun _ _ => Precedes.nil⟩
    (fun _ _ _ _ _ hs hst => hs.step hst) h
  · intro e he
    cases he
  · intro i r hmem
    cases hmem

theorem pushed (h : E.Reachable a c s) : s.Pushed := by
  refine reachable_induction (P := Sys.Pushed) (fun i o hi => ?_)
    (fun _ _ _ _ _ hs hst => hs.step hst) h
  simp [init] at hi

theorem recorded (h : E.Reachable a c s) : s.Recorded := by
  refine reachable_induction (P := Sys.Recorded) (fun i o r hi => ?_)
    (fun _ _ _ _ _ hs hst => hs.step hst) h
  simp [init] at hi

theorem receiverHeld (h : E.Reachable a c s) : s.ReceiverHeld :=
  reachable_induction (P := Sys.ReceiverHeld) rfl (fun _ _ _ _ _ hs hst => hs.step hst) h

/-- While the loop's future exists, the queue is what it has not taken yet. -/
theorem queued (h : E.Reachable a c s) (hp : s.phase.isEnded = false) :
    accepted s.trace = taken s.trace ++ s.chan.queue :=
  h.logged.queued (by rw [h.receiverHeld, hp, Bool.not_false])

end Environment.Reachable

end Hannibal
