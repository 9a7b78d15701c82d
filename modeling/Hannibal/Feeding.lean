/-
The event loop on a sequence of payloads.

`Environment.feeding` is the loop alone: payloads arrive from anywhere, in any
number and at any time, and at some point the last sender may go.  Every run of
the whole system looks to the loop like such a run (`behaves`), and what it does
there is a `Behaves` of the sequence it accepted.

A payload that the loop ignores can be left out of the sequence or put into it
at any place: `behaves_filter_iff`.
-/
import Hannibal.Replay

open scoped List

namespace Hannibal

variable {A : Actor}

inductive FeedLabel (A : Actor) where
  | push (e : Envelope A)
  | close
  | loop (l : LoopLabel A)

/-- A payload is accepted. -/
def Sys.feed (s : Sys A) (e : Envelope A) : Sys A :=
  ({ s with chan := { s.chan with queue := s.chan.queue ++ [e] } }).record [.accepted e]

/-- The last sender is gone. -/
def Sys.hangUp (s : Sys A) : Sys A := { s with chan := { s.chan with senders := 0 } }

namespace Environment

def feedStep (E : Environment A) (s : Sys A) : FeedLabel A → Option (Sys A)
  | .push e => if s.chan.receiver then some (s.feed e) else none
  | .close => some s.hangUp
  | .loop l => s.loopStep E l

/-- The event loop on any sequence of payloads. -/
def feeding (E : Environment A) : Machine (Sys A) (FeedLabel A) := ⟨E.feedStep⟩

end Environment

namespace Event

/-- An entry of the loop other than one about a payload it ignores. -/
def kept (R : RestartStrategy) (ev : Event A) : Bool :=
  match ev with
  | .taken e => match e.payload with
    | .restart => R ≠ .nonRestartable
    | _ => true
  | .refreshed _ => R ≠ .nonRestartable
  | ev => ev.source = .loop

end Event

/-- The loop does something with the payload. -/
def Envelope.live (R : RestartStrategy) (e : Envelope A) : Bool :=
  match e.payload with
  | .restart => R ≠ .nonRestartable
  | _ => true

/-- What `create_loop` can make of the payload sequence `p`: what its hooks and
handlers do and how it ends. -/
def Behaves (E : Environment A) (a : A.State) (c : A.Ctx) (p : List (Envelope A))
    (t : List (Event A)) (o : Option (Exit A)) : Prop :=
  ∃ s, E.feeding.Reaches (E.init a c) s ∧ accepted s.trace = p ∧
    s.trace.filter (Event.kept E.strategy) = t ∧ s.phase.exit? = o

namespace Sys

variable {E : Environment A} {s t f : Sys A} {es : List (Event A)}

/-! ### Steps of the loop alone -/

theorem contextBusy_of_ops (h : s.ops = []) : s.contextBusy = false := by
  simp [contextBusy, h]

theorem Receives.of_mailbox (h : s.Receives E es) (hs : E.stream = none) :
    s.phase = .receiving ∧ es = [] := by
  cases h with
  | plain hp => exact ⟨hp, rfl⟩
  | second hp hn => exact absurd hs hn

/-- Every listed step is one the loop can take. -/
theorem LoopStep.label (h : s.LoopStep E t es) (hs : E.stream = none)
    (hb : s.contextBusy = false) : ∃ l, s.loopStep E l = some t := by
  cases h with
  | startOk w es a c u hp h | startErr w es e a c hp h =>
    refine ⟨.hook w, ?_⟩
    cases hp with
    | first hp | refresh i hp => simp [loopStep, hb, hook, hp, startedHook, h]
  | refreshStop w i hp hR =>
    refine ⟨.hook w, ?_⟩
    rcases hr : E.strategy with _ | _ | _ <;> simp [loopStep, hb, hook, hp, hr] at hR ⊢
  | recreate w i hp hR => exact ⟨.hook w, by simp [loopStep, hb, hook, hp, hR]⟩
  | finishing w hp | stopping w hp => exact ⟨.hook w, by simp [loopStep, hb, hook, hp]⟩
  | takeTask es e q f hr hq hf =>
    obtain ⟨hp, rfl⟩ := hr.of_mailbox hs
    exact ⟨.recv, by simp [loopStep, hb, hp, hs, receive, Mpsc.pollNext, hq, onPayload_mailbox hs,
      createLoopMatch, hf, beginTask, record]⟩
  | takeStop es e q hr hq hf =>
    obtain ⟨hp, rfl⟩ := hr.of_mailbox hs
    exact ⟨.recv, by simp [loopStep, hb, hp, hs, receive, Mpsc.pollNext, hq, onPayload_mailbox hs,
      createLoopMatch, hf, record, Environment.afterLoop]⟩
  | takeRestart e q hp hs' hq hf hR =>
    refine ⟨.recv, ?_⟩
    rcases hr : E.strategy with _ | _ | _ <;>
      simp [loopStep, hb, hp, hs, receive, Mpsc.pollNext, hq, onPayload_mailbox hs,
        createLoopMatch, hf, record, refresh, hr] at hR ⊢
  | ignoreRestart e q hp hs' hq hf hR =>
    exact ⟨.recv, by simp [loopStep, hb, hp, hs, receive, Mpsc.pollNext, hq, onPayload_mailbox hs,
      createLoopMatch, hf, record, refresh, hR]⟩
  | mailboxEnd es hr hq hc =>
    obtain ⟨hp, rfl⟩ := hr.of_mailbox hs
    exact ⟨.recv, by simp [loopStep, hb, hp, hs, receive, Mpsc.pollNext, hq, hc]⟩
  | restartPanic es e q hr hn | streamPending hp hn => exact absurd hs hn
  | takeItem items x hp hs' | streamEnd items hp hs' =>
    rw [hs] at hs'
    cases hs'
  | taskPending i w sel fut fut' a c hp h | taskDone i w sel fut reply a c hp h
  | taskOverran i w sel fut a c hp h =>
    exact ⟨.pollTask w sel, by simp [loopStep, hb, hp, pollTask, h]⟩
  | itemPending x w fut fut' a c hp h | itemDone x w fut r a c hp h =>
    exact ⟨.pollItem w, by simp [loopStep, hb, hp, pollItem, h, record]⟩
  | crash o ho hp =>
    rcases ho with ⟨rfl, hc⟩ | rfl
    · exact ⟨.panic, by simp [loopStep, hb, hc]⟩
    · exact ⟨.drop, by simp [loopStep, hb, hp]⟩
  | notify o hp hd => exact ⟨.notify, by simp [loopStep, hb, hp, hd]⟩
  | dropContext hd => exact ⟨.dropContext, by simp [loopStep, hb, hd]⟩
  | release o hp hd => exact ⟨.release, by simp [loopStep, hb, hp, hd]⟩

/-! ### The same step from another state -/

/-- The loop is at the same point in both states. -/
structure Alike (s f : Sys A) : Prop where
  phase : f.phase = s.phase
  actor : f.actor = s.actor
  ctx : f.ctx = s.ctx
  incarnation : f.incarnation = s.incarnation
  receiver : f.chan.receiver = s.chan.receiver
  ctxDropped : f.ctxDropped = s.ctxDropped

theorem Alike.symm (h : s.Alike f) : f.Alike s :=
  ⟨h.phase.symm, h.actor.symm, h.ctx.symm, h.incarnation.symm, h.receiver.symm,
    h.ctxDropped.symm⟩

theorem Alike.trans (h : s.Alike t) (h' : t.Alike f) : s.Alike f :=
  ⟨h'.phase.trans h.phase, h'.actor.trans h.actor, h'.ctx.trans h.ctx,
    h'.incarnation.trans h.incarnation, h'.receiver.trans h.receiver,
    h'.ctxDropped.trans h.ctxDropped⟩

/-- The state `f` with the loop where it is in `s`. -/
def inPlaceOf (f s : Sys A) : Sys A :=
  { f with
    phase := s.phase
    actor := s.actor
    ctx := s.ctx
    ctxDropped := s.ctxDropped
    incarnation := s.incarnation }

theorem Alike.inPlaceOf_eq (h : s.Alike f) : f.inPlaceOf s = f := by
  unfold inPlaceOf
  rw [← h.phase, ← h.actor, ← h.ctx, ← h.ctxDropped, ← h.incarnation]

/-- A state with another mailbox takes the same step: the mailbox does not
matter, or its head does, or that it has ended, or it goes. -/
inductive Mirrored (E : Environment A) (s t : Sys A) (es : List (Event A)) : Prop where
  | inner (hq : t.chan.queue = s.chan.queue)
      (hf : ∀ f : Sys A, f.chan.receiver = s.chan.receiver → ∃ f',
        (f.inPlaceOf s).LoopStep E f' es ∧ t.Alike f' ∧ f'.chan.queue = f.chan.queue)
  | head (e : Envelope A) (hp : s.phase = .receiving) (hq : s.chan.queue = e :: t.chan.queue)
      (hd : e.live E.strategy = false → s.Alike t ∧ es.filter (Event.kept E.strategy) = [])
      (hf : ∀ (f : Sys A) q, f.chan.receiver = s.chan.receiver → f.chan.queue = e :: q → ∃ f',
        (f.inPlaceOf s).LoopStep E f' es ∧ t.Alike f' ∧ f'.chan.queue = q)
  | drained (hp : s.phase = .receiving) (hq : s.chan.queue = []) (ht : t.chan.queue = [])
      (hf : ∀ f : Sys A, f.chan.receiver = s.chan.receiver → f.chan.queue = [] →
        f.chan.senders = 0 → ∃ f',
          (f.inPlaceOf s).LoopStep E f' es ∧ t.Alike f' ∧ f'.chan.queue = [])
  | all (hq : t.chan.queue = [])
      (hf : ∀ f : Sys A, f.chan.receiver = s.chan.receiver → ∃ f',
        (f.inPlaceOf s).LoopStep E f' es ∧ t.Alike f' ∧ f'.chan.queue = [])

theorem LoopStep.mirrored (h : s.LoopStep E t es) (hs : E.stream = none) : s.Mirrored E t es := by
  cases h with
  | startOk w es a c u hp h =>
    refine .inner rfl fun f hr => ⟨_, .startOk w es a c u ?_ h, ⟨rfl, rfl, rfl, rfl, hr, rfl⟩, rfl⟩
    cases hp with
    | first hp => exact .first hp
    | refresh i hp => exact .refresh i hp
  | startErr w es e a c hp h =>
    refine .inner rfl fun f hr => ⟨_, .startErr w es e a c ?_ h, ⟨rfl, rfl, rfl, rfl, hr, rfl⟩, rfl⟩
    cases hp with
    | first hp => exact .first hp
    | refresh i hp => exact .refresh i hp
  | refreshStop w i hp hR =>
    exact .inner rfl fun f hr => ⟨_, .refreshStop w i hp hR, ⟨rfl, rfl, rfl, rfl, hr, rfl⟩, rfl⟩
  | recreate w i hp hR =>
    exact .inner rfl fun f hr => ⟨_, .recreate w i hp hR, ⟨rfl, rfl, rfl, rfl, hr, rfl⟩, rfl⟩
  | finishing w hp =>
    exact .inner rfl fun f hr => ⟨_, .finishing w hp, ⟨rfl, rfl, rfl, rfl, hr, rfl⟩, rfl⟩
  | stopping w hp =>
    exact .inner rfl fun f hr => ⟨_, .stopping w hp, ⟨rfl, rfl, rfl, rfl, hr, rfl⟩, rfl⟩
  | takeTask es e q g hr hq hg =>
    obtain ⟨hp, rfl⟩ := hr.of_mailbox hs
    refine .head e hp (by simp [hq]) (fun hl => by simp [Envelope.live, hg] at hl)
      fun f q hr hq => ⟨_, .takeTask [] e q g (.plain hp) hq hg, ⟨rfl, rfl, rfl, rfl, hr, rfl⟩,
        congrArg List.tail hq⟩
  | takeStop es e q hr hq hg =>
    obtain ⟨hp, rfl⟩ := hr.of_mailbox hs
    refine .head e hp (by simp [hq]) (fun hl => by simp [Envelope.live, hg] at hl)
      fun f q hr hq => ⟨_, .takeStop [] e q (.plain hp) hq hg, ⟨rfl, rfl, rfl, rfl, hr, rfl⟩,
        congrArg List.tail hq⟩
  | takeRestart e q hp hs' hq hg hR =>
    refine .head e hp (by simp [hq]) (fun hl => by simp [Envelope.live, hg, hR] at hl)
      fun f q hr hq => ⟨_, .takeRestart e q hp hs' hq hg hR, ⟨rfl, rfl, rfl, rfl, hr, rfl⟩,
        congrArg List.tail hq⟩
  | ignoreRestart e q hp hs' hq hg hR =>
    -- such a restart leaves no trace but its own
    refine .head e hp (by simp [hq])
      (fun _ => ⟨⟨hp.symm, rfl, rfl, rfl, rfl, rfl⟩, by simp [Event.kept, hg, hR]⟩)
      fun f q hr hq => ⟨_, .ignoreRestart e q hp hs' hq hg hR, ⟨rfl, rfl, rfl, rfl, hr, rfl⟩,
        congrArg List.tail hq⟩
  | mailboxEnd es hr hq hc =>
    obtain ⟨hp, rfl⟩ := hr.of_mailbox hs
    exact .drained hp hq hq fun f hr hq hc =>
      ⟨_, .mailboxEnd [] (.plain hp) hq hc, ⟨rfl, rfl, rfl, rfl, hr, rfl⟩, hq⟩
  | restartPanic es e q hr hn | streamPending hp hn => exact absurd hs hn
  | takeItem items x hp hs' | streamEnd items hp hs' =>
    rw [hs] at hs'
    cases hs'
  | taskPending i w sel fut fut' a c hp h =>
    exact .inner rfl fun f hr =>
      ⟨_, .taskPending i w sel fut fut' a c hp h, ⟨rfl, rfl, rfl, rfl, hr, rfl⟩, rfl⟩
  | taskDone i w sel fut reply a c hp h =>
    exact .inner rfl fun f hr =>
      ⟨_, .taskDone i w sel fut reply a c hp h, ⟨rfl, rfl, rfl, rfl, hr, rfl⟩, rfl⟩
  | taskOverran i w sel fut a c hp h =>
    exact .inner rfl fun f hr =>
      ⟨_, .taskOverran i w sel fut a c hp h, ⟨rfl, rfl, rfl, rfl, hr, rfl⟩, rfl⟩
  | itemPending x w fut fut' a c hp h =>
    exact .inner rfl fun f hr =>
      ⟨_, .itemPending x w fut fut' a c hp h, ⟨rfl, rfl, rfl, rfl, hr, rfl⟩, rfl⟩
  | itemDone x w fut r a c hp h =>
    exact .inner rfl fun f hr =>
      ⟨_, .itemDone x w fut r a c hp h, ⟨rfl, rfl, rfl, rfl, hr, rfl⟩, rfl⟩
  | crash o ho hp =>
    refine .inner ?_ fun f hr => ⟨_, .crash o ho hp, ?_, ?_⟩ <;>
      simp only [Sys.crash, inPlaceOf] <;> split <;>
      first | rfl | exact ⟨rfl, rfl, rfl, rfl, hr, rfl⟩
  | notify o hp hd =>
    exact .inner rfl fun f hr => ⟨_, .notify o hp hd, ⟨rfl, rfl, rfl, rfl, hr, rfl⟩, rfl⟩
  | dropContext hd =>
    exact .inner rfl fun f hr => ⟨_, .dropContext hd, ⟨rfl, rfl, rfl, rfl, hr, rfl⟩, rfl⟩
  | release o hp hd =>
    exact .all rfl fun f hr => ⟨_, .release o hp hd, ⟨rfl, rfl, rfl, rfl, rfl, rfl⟩, rfl⟩

/-! ### Leaving payloads out -/

/-- The loop is at the same point in `s` and in `f`, but the payloads that
`keep` does not hold of are missing in `f`. -/
structure Without (R : RestartStrategy) (keep : Envelope A → Bool) (s f : Sys A) : Prop where
  alike : s.Alike f
  queue : f.chan.queue = s.chan.queue.filter keep
  accepted : accepted f.trace = (accepted s.trace).filter keep
  kept : f.trace.filter (Event.kept R) = s.trace.filter (Event.kept R)
  ops : f.ops = []

theorem kept_eq_nil {R : RestartStrategy} (h : ∀ ev ∈ es, ev.source ≠ .loop) :
    es.filter (Event.kept R) = [] := by
  refine List.filter_eq_nil_iff.mpr fun ev hev => ?_
  cases ev <;> first | exact absurd rfl (h _ hev) | simp [Event.kept, Event.source]

theorem LoopStep.accepted (h : s.LoopStep E t es) : Hannibal.accepted es = [] := by
  refine accepted_eq_nil fun e hmem => ?_
  have := h.source _ hmem
  simp [Event.source] at this

/-- A step of the loop as a run of the loop alone. -/
theorem LoopStep.reaches (h : s.LoopStep E t es) (hs : E.stream = none) (ho : s.ops = []) :
    E.feeding.Reaches s t := by
  obtain ⟨l, hl⟩ := h.label hs (contextBusy_of_ops ho)
  exact .single (M := E.feeding) (l := .loop l) hl

theorem feed_reaches (hr : s.chan.receiver = true) (e : Envelope A) :
    E.feeding.Reaches s (s.feed e) := by
  refine .single (l := .push e) ?_
  simp [Environment.feeding, Environment.feedStep, hr]

theorem hangUp_reaches : E.feeding.Reaches s s.hangUp :=
  .single (M := E.feeding) (l := .close) rfl

section

variable {keep : Envelope A → Bool}

/-- A payload arrives, or nothing the loop can see happens. -/
theorem Without.arrives (hw : Without E.strategy keep s f) (ha : s.Alike t)
    (ht : t.trace = s.trace ++ es) (hsrc : ∀ ev ∈ es, ev.source ≠ .loop)
    (hq : (t.chan.queue = s.chan.queue ∧ Hannibal.accepted es = []) ∨
      s.chan.receiver = true ∧
        ∃ e, t.chan.queue = s.chan.queue ++ [e] ∧ Hannibal.accepted es = [e]) :
    ∃ f', E.feeding.Reaches f f' ∧ Without E.strategy keep t f' := by
  have halike : t.Alike f := ha.symm.trans hw.alike
  have hkept : f.trace.filter (Event.kept E.strategy) = t.trace.filter (Event.kept E.strategy) := by
    rw [ht, List.filter_append, kept_eq_nil hsrc, List.append_nil, hw.kept]
  rcases hq with ⟨hq, hac⟩ | ⟨hr, e, hq, hac⟩
  · refine ⟨f, .refl _ _, halike, by rw [hq, hw.queue], ?_, hkept, hw.ops⟩
    rw [ht, accepted_append, hac, List.append_nil, hw.accepted]
  · by_cases he : keep e = true
    · refine ⟨f.feed e, feed_reaches (hw.alike.receiver.trans hr) e, ?_, ?_, ?_, ?_, hw.ops⟩
      · exact halike.trans ⟨rfl, rfl, rfl, rfl, rfl, rfl⟩
      · rw [hq, List.filter_append, ← hw.queue, List.filter_cons_of_pos he]
        rfl
      · rw [ht, accepted_append, hac, List.filter_append, ← hw.accepted,
          List.filter_cons_of_pos he]
        exact accepted_append _ _
      · rw [← hkept]
        exact (List.filter_append ..).trans (List.append_nil _)
    · refine ⟨f, .refl _ _, halike, ?_, ?_, hkept, hw.ops⟩
      · rw [hq, List.filter_append, List.filter_cons_of_neg he, List.filter_nil, List.append_nil,
          hw.queue]
      · rw [ht, accepted_append, hac, List.filter_append, List.filter_cons_of_neg he,
          List.filter_nil, List.append_nil, hw.accepted]

/-- The loop takes a step; if it is about a missing payload, there is nothing to
do without it. -/
theorem Without.loop (hw : Without E.strategy keep s f) (hs : E.stream = none)
    (hk : ∀ e, keep e = false → e.live E.strategy = false) (h : s.LoopStep E t es) :
    ∃ f', E.feeding.Reaches f f' ∧ Without E.strategy keep t f' := by
  -- what the answer of `f` has to satisfy, and what follows from it
  have hdone : ∀ {g f' : Sys A}, E.feeding.Reaches f g → g.ops = [] → g.trace = f.trace →
      (g.inPlaceOf s).LoopStep E f' es → s.Alike g → t.Alike f' →
      f'.chan.queue = t.chan.queue.filter keep →
      ∃ f', E.feeding.Reaches f f' ∧ Without E.strategy keep t f' := by
    intro g f' hfg hgo hgt hl hsg ha hq
    rw [hsg.inPlaceOf_eq] at hl
    refine ⟨f', hfg.trans (hl.reaches hs hgo), ha, hq, ?_, ?_, hl.untouched.ops.trans hgo⟩
    · rw [hl.trace, h.trace, accepted_append, accepted_append, h.accepted, List.append_nil,
        List.append_nil, hgt, hw.accepted]
    · rw [hl.trace, h.trace, List.filter_append, List.filter_append, hgt, hw.kept]
  have hr := hw.alike.receiver
  cases h.mirrored hs with
  | inner hq hf =>
    obtain ⟨f', hl, ha, hq'⟩ := hf f hr
    exact hdone (.refl _ _) hw.ops rfl hl hw.alike ha (by rw [hq', hq, hw.queue])
  | head e hp hq hd hf =>
    by_cases he : keep e = true
    · have hfq : f.chan.queue = e :: t.chan.queue.filter keep := by
        rw [hw.queue, hq, List.filter_cons_of_pos he]
      obtain ⟨f', hl, ha, hq'⟩ := hf f _ hr hfq
      exact hdone (.refl _ _) hw.ops rfl hl hw.alike ha hq'
    · obtain ⟨ha, hes⟩ := hd (hk e (by simpa using he))
      refine ⟨f, .refl _ _, ha.symm.trans hw.alike, ?_, ?_, ?_, hw.ops⟩
      · rw [hw.queue, hq, List.filter_cons_of_neg he]
      · rw [h.trace, accepted_append, h.accepted, List.append_nil, hw.accepted]
      · rw [h.trace, List.filter_append, hes, List.append_nil, hw.kept]
  | drained hp hq ht hf =>
    obtain ⟨f', hl, ha, hq'⟩ := hf f.hangUp hr (hw.queue.trans (by rw [hq]; rfl)) rfl
    exact hdone hangUp_reaches hw.ops rfl hl (hw.alike.trans ⟨rfl, rfl, rfl, rfl, rfl, rfl⟩) ha
      (by rw [hq', ht]; rfl)
  | all hq hf =>
    obtain ⟨f', hl, ha, hq'⟩ := hf f hr
    exact hdone (.refl _ _) hw.ops rfl hl hw.alike ha (by rw [hq', hq]; rfl)

/-- A step of the loop alone. -/
theorem Without.step (hw : Without E.strategy keep s f) (hs : E.stream = none)
    (hk : ∀ e, keep e = false → e.live E.strategy = false) {l : FeedLabel A}
    (h : E.feeding.step s l = some t) :
    ∃ f', E.feeding.Reaches f f' ∧ Without E.strategy keep t f' := by
  cases l with
  | push e =>
    simp only [Environment.feeding, Environment.feedStep] at h
    split at h
    · next hr =>
      cases h
      exact hw.arrives ⟨rfl, rfl, rfl, rfl, rfl, rfl⟩ rfl (by simp [Event.source])
        (.inr ⟨hr, e, rfl, rfl⟩)
    · cases h
  | close =>
    cases h
    have ht : s.hangUp.trace = s.trace ++ [] := (List.append_nil _).symm
    exact hw.arrives ⟨rfl, rfl, rfl, rfl, rfl, rfl⟩ ht (by simp) (.inl ⟨rfl, rfl⟩)
  | loop l =>
    obtain ⟨-, es, hl⟩ := loopStep_cases h
    exact hw.loop hs hk hl

end

/-! ### Putting payloads in -/

/-- The loop at the same point, with `q` in its mailbox. -/
structure Skips (E : Environment A) (s t : Sys A) (q : List (Envelope A)) : Prop where
  reaches : E.feeding.Reaches s t
  alike : s.Alike t
  queue : t.chan.queue = q
  accepted : Hannibal.accepted t.trace = Hannibal.accepted s.trace
  kept : t.trace.filter (Event.kept E.strategy) = s.trace.filter (Event.kept E.strategy)
  ops : t.ops = []

theorem skip_one {e : Envelope A} {q : List (Envelope A)} (hs : E.stream = none)
    (hp : s.phase = .receiving) (ho : s.ops = []) (hq : s.chan.queue = e :: q)
    (he : e.live E.strategy = false) : ∃ t, s.Skips E t q := by
  have hf : e.payload = .restart ∧ E.strategy = .nonRestartable := by
    unfold Envelope.live at he
    split at he <;> simp_all
  have hl := LoopStep.ignoreRestart e q hp hs hq hf.1 hf.2
  refine ⟨_, hl.reaches hs ho, ⟨hp.symm, rfl, rfl, rfl, rfl, rfl⟩, congrArg List.tail hq, ?_, ?_,
    ho⟩
  · exact (accepted_append _ _).trans (List.append_nil _)
  · rw [record_trace, List.filter_append]
    simp [Event.kept, hf.1, hf.2]

/-- The loop gets ignored payloads at the head of its mailbox out of the way. -/
theorem skip_all (hs : E.stream = none) {ds q : List (Envelope A)} :
    ∀ {s : Sys A}, s.phase = .receiving → s.ops = [] → s.chan.queue = ds ++ q →
      (∀ e ∈ ds, e.live E.strategy = false) → ∃ t, s.Skips E t q := by
  induction ds with
  | nil => exact fun hp ho hq _ => ⟨_, .refl _ _, ⟨rfl, rfl, rfl, rfl, rfl, rfl⟩, hq, rfl, rfl, ho⟩
  | cons e ds ih =>
    intro s hp ho hq hd
    obtain ⟨t, ht⟩ := skip_one hs hp ho hq (hd e (List.mem_cons_self ..))
    obtain ⟨u, hu⟩ := ih (ht.alike.phase.trans hp) ht.ops ht.queue
      fun e' he' => hd e' (List.mem_cons_of_mem _ he')
    exact ⟨u, ht.reaches.trans hu.reaches, ht.alike.trans hu.alike, hu.queue,
      hu.accepted.trans ht.accepted, hu.kept.trans ht.kept, hu.ops⟩

/-- A state without the ignored payloads, and one with them. -/
structure Inserted (E : Environment A) (f s : Sys A) : Prop where
  without : Without E.strategy (Envelope.live E.strategy) s f
  ops : s.ops = []

/-- A step of the loop is answered by the same step, once the ignored payloads
before it are out of the way. -/
theorem Inserted.loop {f' : Sys A} (hi : Inserted E f s) (hs : E.stream = none)
    (h : f.LoopStep E f' es) : ∃ s', E.feeding.Reaches s s' ∧ Inserted E f' s' ∧
      Hannibal.accepted s'.trace = Hannibal.accepted s.trace := by
  obtain ⟨hw, ho⟩ := hi
  have hr := hw.alike.symm.receiver
  have hac := h.accepted
  -- what the answer of `s` has to satisfy, and what follows from it
  have hdone : ∀ {g s' : Sys A}, E.feeding.Reaches s g → g.ops = [] →
      Hannibal.accepted g.trace = Hannibal.accepted s.trace →
      g.trace.filter (Event.kept E.strategy) = s.trace.filter (Event.kept E.strategy) →
      f.Alike g → (g.inPlaceOf f).LoopStep E s' es → f'.Alike s' →
      f'.chan.queue = s'.chan.queue.filter (Envelope.live E.strategy) →
      ∃ s', E.feeding.Reaches s s' ∧ Inserted E f' s' ∧
        Hannibal.accepted s'.trace = Hannibal.accepted s.trace := by
    intro g s' hsg hgo hga hgk hfg hl ha hq
    rw [hfg.inPlaceOf_eq] at hl
    have hacs : Hannibal.accepted s'.trace = Hannibal.accepted s.trace := by
      rw [hl.trace, accepted_append, hac, List.append_nil, hga]
    refine ⟨s', hsg.trans (hl.reaches hs hgo), ⟨⟨ha.symm, hq, ?_, ?_, ?_⟩, ?_⟩, hacs⟩
    · rw [hacs, h.trace, accepted_append, hac, List.append_nil, hw.accepted]
    · rw [hl.trace, h.trace, List.filter_append, List.filter_append, hgk, hw.kept]
    · exact h.untouched.ops.trans hw.ops
    · exact hl.untouched.ops.trans hgo
  cases h.mirrored hs with
  | inner hq hf =>
    obtain ⟨s', hl, ha, hq'⟩ := hf s hr
    exact hdone (.refl _ _) ho rfl rfl hw.alike.symm hl ha (by rw [hq, hq', hw.queue])
  | head e hp hq hd hf =>
    obtain ⟨ds, q, hsq, hds, he, hfq⟩ := List.filter_eq_cons_iff.mp (hw.queue.symm.trans hq)
    obtain ⟨g, hg⟩ := skip_all (q := e :: q) hs (hw.alike.symm.phase.trans hp) ho hsq
      fun e he => by simpa using hds e he
    obtain ⟨s', hl, ha, hq'⟩ := hf g q (hg.alike.receiver.trans hr) hg.queue
    exact hdone hg.reaches hg.ops hg.accepted hg.kept (hw.alike.symm.trans hg.alike) hl ha
      (by rw [hq', hfq])
  | drained hp hq ht hf =>
    have hds := List.filter_eq_nil_iff.mp (hw.queue.symm.trans hq)
    obtain ⟨g, hg⟩ := skip_all (q := []) hs (hw.alike.symm.phase.trans hp) ho
      (List.append_nil _).symm fun e he => by simpa using hds e he
    obtain ⟨s', hl, ha, hq'⟩ := hf g.hangUp (hg.alike.receiver.trans hr) hg.queue rfl
    exact hdone (hg.reaches.trans hangUp_reaches) hg.ops hg.accepted hg.kept
      ((hw.alike.symm.trans hg.alike).trans ⟨rfl, rfl, rfl, rfl, rfl, rfl⟩) hl ha
      (by rw [hq', ht]; rfl)
  | all hq hf =>
    obtain ⟨s', hl, ha, hq'⟩ := hf s hr
    exact hdone (.refl _ _) ho rfl rfl hw.alike.symm hl ha (by rw [hq, hq']; rfl)

theorem Inserted.ignored {e : Envelope A} (hi : Inserted E f s)
    (he : e.live E.strategy = false) : Inserted E f (s.feed e) := by
  obtain ⟨hw, ho⟩ := hi
  refine ⟨⟨?_, ?_, ?_, ?_, hw.ops⟩, ho⟩
  · exact ⟨hw.alike.phase, hw.alike.actor, hw.alike.ctx, hw.alike.incarnation, hw.alike.receiver,
      hw.alike.ctxDropped⟩
  · rw [hw.queue]
    simp [feed, he]
  · rw [hw.accepted]
    simp [feed, he, Hannibal.accepted, Event.accepted?, List.filterMap_append]
  · rw [hw.kept]
    simp [feed, Event.kept, Event.source]

theorem Inserted.fed {e : Envelope A} (hi : Inserted E f s) (he : e.live E.strategy = true) :
    Inserted E (f.feed e) (s.feed e) := by
  obtain ⟨hw, ho⟩ := hi
  refine ⟨⟨?_, ?_, ?_, ?_, hw.ops⟩, ho⟩
  · exact ⟨hw.alike.phase, hw.alike.actor, hw.alike.ctx, hw.alike.incarnation, hw.alike.receiver,
      hw.alike.ctxDropped⟩
  · simp [feed, he, hw.queue]
  · show accepted (f.trace ++ [.accepted e]) = (accepted (s.trace ++ [.accepted e])).filter _
    rw [accepted_append, accepted_append, List.filter_append, hw.accepted]
    simp [Hannibal.accepted, Event.accepted?, he]
  · simp [feed, Event.kept, Event.source, hw.kept]

/-- Ignored payloads arrive. -/
theorem Inserted.ignored_all {ds : List (Envelope A)} : ∀ {s : Sys A}, Inserted E f s →
    s.chan.receiver = true → (∀ e ∈ ds, e.live E.strategy = false) →
      ∃ t, E.feeding.Reaches s t ∧ Inserted E f t ∧ t.chan.receiver = true ∧
        accepted t.trace = accepted s.trace ++ ds := by
  induction ds with
  | nil => exact fun hi hr _ => ⟨_, .refl _ _, hi, hr, (List.append_nil _).symm⟩
  | cons e ds ih =>
    intro s hi hr hd
    obtain ⟨t, hst, ht, hrt, hac⟩ := ih (hi.ignored (hd e (List.mem_cons_self ..))) hr
      fun e' he' => hd e' (List.mem_cons_of_mem _ he')
    refine ⟨t, (feed_reaches hr e).trans hst, ht, hrt, hac.trans ?_⟩
    show accepted (s.trace ++ [.accepted e]) ++ ds = accepted s.trace ++ e :: ds
    rw [accepted_append, List.append_assoc]
    rfl

/-- The sequence that `f` accepted can be that with any ignored payloads in it. -/
def Insertable (E : Environment A) (a : A.State) (c : A.Ctx) (f : Sys A) : Prop :=
  ∀ p : List (Envelope A), p.filter (Envelope.live E.strategy) = accepted f.trace →
    ∃ s, E.feeding.Reaches (E.init a c) s ∧ Inserted E f s ∧ accepted s.trace = p

theorem insertable_init (a : A.State) (c : A.Ctx) : Insertable E a c (E.init a c) := by
  intro p hp
  have hi : Inserted E (E.init a c) (E.init a c) :=
    ⟨⟨⟨rfl, rfl, rfl, rfl, rfl, rfl⟩, rfl, rfl, rfl, rfl⟩, rfl⟩
  have hd : ∀ e ∈ p, e.live E.strategy = false :=
    fun e he => by simpa using List.filter_eq_nil_iff.mp hp e he
  obtain ⟨t, hst, ht, -, hac⟩ := hi.ignored_all rfl hd
  exact ⟨t, hst, ht, hac⟩

theorem Insertable.step {a : A.State} {c : A.Ctx} {l : FeedLabel A} (hf : Insertable E a c f)
    (hs : E.stream = none) (h : E.feeding.step f l = some t) : Insertable E a c t := by
  intro p hp
  cases l with
  | push e =>
    simp only [Environment.feeding, Environment.feedStep] at h
    split at h
    · next hr =>
      cases h
      have hacf : accepted (f.feed e).trace = accepted f.trace ++ [e] := accepted_append _ _
      rw [hacf] at hp
      obtain ⟨p₁, p₂, rfl, hp₁, hp₂⟩ := List.filter_eq_append_iff.mp hp
      obtain ⟨ds, q, rfl, hds, he, hq⟩ := List.filter_eq_cons_iff.mp hp₂
      -- what stands before the new payload arrives first, what stands behind it last
      have hd : ∀ e ∈ ds, e.live E.strategy = false := fun e he => by simpa using hds e he
      have hd' : ∀ e ∈ q, e.live E.strategy = false :=
        fun e he => by simpa using List.filter_eq_nil_iff.mp hq e he
      obtain ⟨s, hs₀, hi, hac⟩ := hf p₁ hp₁
      obtain ⟨s₁, h₁, hi₁, hr₁, hac₁⟩ :=
        hi.ignored_all (hi.without.alike.receiver.symm.trans hr) hd
      obtain ⟨s₂, h₂, hi₂, -, hac₂⟩ := (hi₁.fed he).ignored_all hr₁ hd'
      refine ⟨s₂, ((hs₀.trans h₁).trans (feed_reaches hr₁ e)).trans h₂, hi₂, ?_⟩
      rw [hac₂, ← hac]
      show accepted (s₁.trace ++ [.accepted e]) ++ q = _
      rw [accepted_append, hac₁]
      simp [accepted, Event.accepted?]
    · cases h
  | close =>
    cases h
    obtain ⟨s, hs₀, ⟨hw, ho⟩, hac⟩ := hf p hp
    exact ⟨s, hs₀, ⟨⟨hw.alike.trans ⟨rfl, rfl, rfl, rfl, rfl, rfl⟩, hw.queue, hw.accepted, hw.kept,
      hw.ops⟩, ho⟩, hac⟩
  | loop l =>
    obtain ⟨-, es, hl⟩ := loopStep_cases h
    rw [hl.trace, accepted_append, hl.accepted, List.append_nil] at hp
    obtain ⟨s, hs₀, hi, hac⟩ := hf p hp
    obtain ⟨s', hs', hi', hac'⟩ := hi.loop hs hl
    exact ⟨s', hs₀.trans hs', hi', hac'.trans hac⟩

end Sys

/-! ### Behaviours -/

variable {E : Environment A} {a : A.State} {c : A.Ctx}

/-- What the loop does in a run of the whole system it can do with the sequence
of payloads that was accepted there. -/
theorem Environment.Reachable.behaves {s : Sys A} (h : E.Reachable a c s) (hs : E.stream = none) :
    Behaves E a c (accepted s.trace) (s.trace.filter (Event.kept E.strategy)) s.phase.exit? := by
  have hw : ∃ f, E.feeding.Reaches (E.init a c) f ∧ Sys.Without E.strategy (fun _ => true) s f := by
    refine reachable_induction (P := fun s => ∃ f, E.feeding.Reaches (E.init a c) f ∧
      Sys.Without E.strategy (fun _ => true) s f) ?_ ?_ h
    · exact ⟨_, .refl _ _, ⟨rfl, rfl, rfl, rfl, rfl, rfl⟩, rfl, rfl, rfl, rfl⟩
    · rintro s t es - - ⟨f, hf, hw⟩ hst
      rcases hst.outside with ⟨ho, he⟩ | ⟨-, hl⟩
      · obtain ⟨f', hff, hw'⟩ := hw.arrives
          ⟨ho.phase, ho.actor, ho.ctx, ho.incarnation, ho.receiver, ho.ctxDropped⟩ ho.trace
          ho.source he.accepted
        exact ⟨f', hf.trans hff, hw'⟩
      · obtain ⟨f', hff, hw'⟩ := hw.loop hs nofun hl
        exact ⟨f', hf.trans hff, hw'⟩
  obtain ⟨f, hf, hw⟩ := hw
  exact ⟨f, hf, hw.accepted.trans (by simp), hw.kept, congrArg Phase.exit? hw.alike.phase⟩

/-- **Deletion.**  Ignored payloads can be left out of the sequence, or put into
it, and neither what the hooks and handlers do nor the result changes. -/
theorem behaves_filter_iff (hs : E.stream = none) {p : List (Envelope A)} {t : List (Event A)}
    {o : Option (Exit A)} :
    Behaves E a c (p.filter (Envelope.live E.strategy)) t o ↔ Behaves E a c p t o := by
  constructor
  · rintro ⟨f, hf, hac, hk, ho⟩
    have hins : Sys.Insertable E a c f :=
      Machine.invariant (fun _ _ _ hi h => hi.step hs h) (Sys.insertable_init a c) hf
    obtain ⟨s, hs', hi, hacs⟩ := hins p hac.symm
    exact ⟨s, hs', hacs, hi.without.kept.symm.trans hk,
      (congrArg Phase.exit? hi.without.alike.phase).symm.trans ho⟩
  · rintro ⟨s, hs', rfl, rfl, rfl⟩
    obtain ⟨f, hf, hw⟩ := Machine.simulation
      (R := Sys.Without E.strategy (Envelope.live E.strategy))
      (fun s l s' f hw h => hw.step hs (fun _ he => he) h)
      (⟨⟨rfl, rfl, rfl, rfl, rfl, rfl⟩, rfl, rfl, rfl, rfl⟩ :
        Sys.Without E.strategy (Envelope.live E.strategy) (E.init a c) (E.init a c)) hs'
    exact ⟨f, hf, hw.accepted, hw.kept, congrArg Phase.exit? hw.alike.phase⟩

end Hannibal
