/-
How an actor's end is seen from outside.

The outcome of the loop's future is settled when its body is done; the stop
notifier is used up next, then the receiver goes.  Three invariants follow it
to the observers

* `Notified` — an awaited `Addr` resolves to what the outcome was, and only
  after the loop did the last thing it does with the actor;
* `Final` — an `Ok` outcome is the actor on which the last `stopped` completed;
* `Joins` — one join future gets the task's handle, the one polled first;

and give `observers_agree`.
-/
import Hannibal.History

open scoped List

namespace Hannibal

variable {A : Actor}

/-- What becomes of the stop notifier. -/
def Exit.notice : Exit A → Oneshot Unit
  | .ok _ => .sent ()
  | .err _ => .canceled
  | .panicked => .canceled
  | .dropped => .canceled

/-- The stop notification as the phase has it. -/
def Phase.notice : Phase A → Oneshot Unit
  | .releasing o => o.notice
  | .ended o => o.notice
  | _ => .pending

/-- The outcome of the loop's future, once its body is done. -/
def Phase.exit? : Phase A → Option (Exit A)
  | .leaving o => some o
  | .releasing o => some o
  | .ended o => some o
  | _ => none

/-- The loop runs, or has anything to do with, a hook, a handler or a payload. -/
def Event.acts (ev : Event A) : Prop := ev.source = .loop ∧ ev ≠ .notified ∧ ev ≠ .released

theorem Exit.notice_poll_ok {o : Exit A} :
    o.notice.poll = .ready (.ok ()) ↔ ∃ a, o = .ok a := by
  cases o <;> simp [Exit.notice, Oneshot.poll]

theorem Exit.notice_poll_error {o : Exit A} {e : Canceled} :
    o.notice.poll = .ready (.error e) ↔ ∀ a, o ≠ .ok a := by
  cases e
  cases o <;> simp [Exit.notice, Oneshot.poll]

theorem Exit.notice_poll (o : Exit A) : ∃ r, o.notice.poll = .ready r := by
  cases o <;> exact ⟨_, rfl⟩

theorem Phase.exit_of_notice {p : Phase A} (h : p.notice ≠ .pending) :
    ∃ o, (p = .releasing o ∨ p = .ended o) ∧ p.notice = o.notice := by
  cases p with
  | releasing o => exact ⟨o, .inl rfl, rfl⟩
  | ended o => exact ⟨o, .inr rfl, rfl⟩
  | _ => exact absurd rfl h

namespace Sys

/-! ### The way out -/

/-- A step of the loop comes before the notification, is the notification, the
drop of the context, or the release behind them. -/
inductive Exits (s t : Sys A) (es : List (Event A)) : Prop where
  | stays (hs : s.phase.notice = .pending) (ht : t.phase.notice = .pending)
      (hr : t.running = s.running)
  | notifies (o : Exit A) (hs : s.phase = .leaving o) (ht : t.phase = .releasing o)
      (hr : s.running.inner = .pending → t.running.inner = o.notice) (he : es = [.notified])
  | drops (ht : t.phase = s.phase) (hr : t.running = s.running) (he : es = [])
  | releases (o : Exit A) (hs : s.phase = .releasing o) (ht : t.phase = .ended o)
      (hr : t.running = s.running) (he : es = [.released])

theorem LoopStep.exits {E : Environment A} {s t : Sys A} {es : List (Event A)}
    (h : s.LoopStep E t es) : s.Exits t es := by
  cases h with
  | startOk w es a c u hp | startErr w es e a c hp =>
    cases hp with
    | first hp | refresh i hp => exact .stays (by simp [hp, Phase.notice]) rfl rfl
  | takeTask es e q f hr | restartPanic es e q hr =>
    exact .stays (by simp [hr.events.1, Phase.notice]) rfl rfl
  | takeStop es e q hr | mailboxEnd es hr =>
    refine .stays (by simp [hr.events.1, Phase.notice]) ?_ rfl
    simp only [record_phase, Environment.afterLoop]
    split <;> rfl
  | streamPending hp =>
    have hn : s.phase.notice = .pending := by simp [hp, Phase.notice]
    exact .stays hn hn rfl
  | taskOverran i w sel fut a c hp =>
    refine .stays (by simp [hp, Phase.notice]) ?_ rfl
    simp only [Sys.overrun, record_phase]
    split <;> rfl
  | crash o ho hs =>
    have hn : s.phase.notice = .pending := by
      cases hp : s.phase <;> simp [suspended, hp] at hs <;> rfl
    unfold Sys.crash
    split <;> exact .stays hn rfl rfl
  | notify o hp =>
    refine .notifies o hp rfl (fun hi => ?_) rfl
    cases o <;> simp [Sys.notify, hi, Exit.notice, Oneshot.send, Oneshot.dropSender]
  | dropContext => exact .drops rfl rfl rfl
  | release o hp => exact .releases o hp rfl rfl rfl
  | refreshStop w i hp | recreate w i hp | finishing w hp | stopping w hp | takeRestart e q hp
  | ignoreRestart e q hp | takeItem items x hp | streamEnd items hp
  | taskPending i w sel fut f a c hp
  | taskDone i w sel fut reply a c hp | itemPending x w fut f a c hp | itemDone x w fut r a c hp =>
    exact .stays (by simp [hp, Phase.notice]) rfl rfl

/-- The notification carries the outcome to the awaiters, who resolve to it only
after the loop is done with the actor. -/
structure Notified (s : Sys A) : Prop where
  inner : s.running.inner = s.phase.notice
  faithful : s.running.Faithful
  resolved : ∀ h r, .resolved h r ∈ s.trace → s.running.inner.poll = .ready r
  silent : ∀ h r, ∀ ev : Event A, ev.acts → Precedes s.trace ev (.resolved h r)

/-! ### The context on the way out -/

/-- The context is dropped on the way out, before the mailbox; the stop notifier goes before
it where the loop returns `Ok`, and behind it everywhere else. -/
structure Unwinds (s : Sys A) : Prop where
  leaves : s.ctxDropped = true → ∃ o, s.phase.exit? = some o
  ok : ∀ a, s.phase = .leaving (.ok a) → s.ctxDropped = false
  others : ∀ o, s.phase = .releasing o → (∀ a, o ≠ .ok a) → s.ctxDropped = true
  ended : ∀ o, s.phase = .ended o → s.ctxDropped = true

/-- A step of the loop works, or is one of the three of the way out. -/
inductive Leaving (s t : Sys A) : Prop where
  | works (hs : s.phase.exit? = none) (hc : t.ctxDropped = s.ctxDropped)
      (ht : ∀ o, t.phase ≠ .releasing o ∧ t.phase ≠ .ended o)
  | drops (hd : s.dropsContext = true) (ht : t = s.dropContext)
  | notifies (o : Exit A) (hd : s.dropsContext = false) (hs : s.phase = .leaving o)
      (hc : t.ctxDropped = s.ctxDropped) (ht : t.phase = .releasing o)
  | releases (o : Exit A) (hd : s.dropsContext = false) (hs : s.phase = .releasing o)
      (hc : t.ctxDropped = s.ctxDropped) (ht : t.phase = .ended o)

theorem LoopStep.leaving {E : Environment A} {s t : Sys A} {es : List (Event A)}
    (h : s.LoopStep E t es) : s.Leaving t := by
  cases h with
  | startOk w es a c u hp | startErr w es e a c hp =>
    cases hp with
    | first hp | refresh i hp => exact .works (by simp [hp, Phase.exit?]) rfl (by simp)
  | takeTask es e q f hr | restartPanic es e q hr =>
    exact .works (by simp [hr.events.1, Phase.exit?]) rfl (by simp)
  | takeStop es e q hr | mailboxEnd es hr =>
    refine .works (by simp [hr.events.1, Phase.exit?]) rfl fun o => ?_
    simp only [record_phase, Environment.afterLoop]
    split <;> simp
  | streamPending hp => exact .works (by simp [hp, Phase.exit?]) rfl (by simp [hp])
  | taskOverran i w sel fut a c hp =>
    refine .works (by simp [hp, Phase.exit?]) rfl fun o => ?_
    simp only [Sys.overrun, record_phase]
    split <;> simp
  | crash o ho hs =>
    have hn : s.phase.exit? = none := by
      cases hp : s.phase <;> simp [suspended, hp] at hs <;> rfl
    unfold Sys.crash
    split <;> exact .works hn rfl (by simp)
  | notify o hp hd => exact .notifies o hd hp rfl rfl
  | dropContext hd => exact .drops hd rfl
  | release o hp hd => exact .releases o hd hp rfl rfl
  | refreshStop w i hp | recreate w i hp | finishing w hp | stopping w hp | takeRestart e q hp
  | ignoreRestart e q hp | takeItem items x hp | streamEnd items hp
  | taskPending i w sel fut f a c hp
  | taskDone i w sel fut reply a c hp | itemPending x w fut f a c hp | itemDone x w fut r a c hp =>
    exact .works (by simp [hp, Phase.exit?]) rfl (by simp [Sys.complete])

/-- The context is dropped once. -/
theorem ctxDropped_step {E : Environment A} {s t : Sys A} {es : List (Event A)}
    (h : E.Step s t es) (hd : s.ctxDropped = true) : t.ctxDropped = true := by
  rcases h.outside with ⟨ho, -⟩ | ⟨-, hl⟩
  · exact ho.ctxDropped ▸ hd
  · cases hl.leaving with
    | works hs hc | notifies o ho hs hc | releases o ho hs hc => exact hc ▸ hd
    | drops ho ht => exact ht ▸ rfl

theorem Unwinds.step {E : Environment A} {s t : Sys A} {es : List (Event A)} (hs : s.Unwinds)
    (h : E.Step s t es) : t.Unwinds := by
  rcases h.outside with ⟨ho, -⟩ | ⟨-, hl⟩
  · obtain ⟨hleave, hok, hother, hend⟩ := hs
    rw [← ho.phase, ← ho.ctxDropped] at hleave
    refine ⟨hleave, ?_, ?_, ?_⟩ <;> rw [ho.phase, ho.ctxDropped] <;> assumption
  cases hl.leaving with
  | works hn hc ht =>
    -- the context is still there
    have hheld : t.ctxDropped = false := by
      rw [hc, ← Bool.not_eq_true]
      intro hd
      obtain ⟨o, ho⟩ := hs.leaves hd
      rw [hn] at ho
      cases ho
    exact ⟨fun hd => absurd hd (by simp [hheld]), fun _ _ => hheld,
      fun o hp => absurd hp (ht o).1, fun o hp => absurd hp (ht o).2⟩
  | drops hd ht =>
    subst ht
    refine ⟨fun _ => ?_, fun a hp => ?_, fun _ _ _ => rfl, fun _ _ => rfl⟩
    · obtain ⟨o, hp | hp⟩ := phase_of_dropsContext hd <;> exact ⟨o, by simp [hp, Phase.exit?]⟩
    · have hp : s.phase = .leaving (.ok a) := hp
      simp [dropsContext, hp] at hd
  | notifies o hd hp hc ht =>
    refine ⟨fun _ => ⟨o, by rw [ht]; rfl⟩, fun a hp' => ?_, fun o' hp' hno => ?_, fun o' hp' => ?_⟩
    · rw [ht] at hp'
      cases hp'
    · -- behind an error the context has gone before
      rw [ht] at hp'
      cases hp'
      rw [hc]
      cases o with
      | ok a => exact absurd rfl (hno a)
      | err | panicked | dropped => simpa [dropsContext, hp] using hd
    · rw [ht] at hp'
      cases hp'
  | releases o hd hp hc ht =>
    have hdropped : t.ctxDropped = true := by
      rw [hc]
      simpa [dropsContext, hp] using hd
    refine ⟨fun _ => ⟨o, by rw [ht]; rfl⟩, fun a hp' => ?_, fun o' hp' => ?_,
      fun _ _ => hdropped⟩ <;>
    · rw [ht] at hp'
      cases hp'

theorem not_acts_of_outside {s t : Sys A} {es : List (Event A)} (h : s.Outside t es) {ev : Event A}
    (hev : ev.acts) : ev ∉ es := fun hmem => h.source ev hmem hev.1

theorem Notified.step {E : Environment A} {s t : Sys A} {es : List (Event A)} (hs : s.Notified)
    (h : E.Step s t es) : t.Notified := by
  rcases h.outside with ⟨ho, -⟩ | ⟨-, hl⟩
  · refine ⟨?_, ?_, ?_, ?_⟩
    · rw [ho.inner, ho.phase, hs.inner]
    · rcases ho.running with hr | ⟨r, hr, ht⟩
      · rw [hr]
        exact hs.faithful
      · rw [ht]
        exact Shared.Faithful.complete ((Shared.poll_eq_ready hs.faithful).mp hr)
    · intro i r hmem
      rw [ho.inner]
      rw [ho.trace, List.mem_append] at hmem
      rcases hmem with hmem | hmem
      · exact hs.resolved i r hmem
      · exact (Shared.poll_eq_ready hs.faithful).mp (ho.resolved i r hmem)
    · intro i r ev hev
      have hn := not_acts_of_outside ho hev
      rw [ho.trace]
      exact Precedes.append.mpr
        ⟨hs.silent i r ev hev, fun hsub => hn (hsub.subset (by simp)), fun _ => hn⟩
  · have hno : ∀ i r, .resolved i r ∉ es := by
      intro i r hmem
      have := hl.source _ hmem
      simp [Event.source] at this
    have hmem : ∀ i r, .resolved i r ∈ t.trace ↔ .resolved i r ∈ s.trace := by
      intro i r
      rw [hl.trace, List.mem_append, or_iff_left (hno i r)]
    have hpend : s.phase.notice = .pending → ∀ i r, .resolved i r ∉ s.trace := by
      intro hn i r hir
      have := hs.resolved i r hir
      rw [hs.inner, hn] at this
      cases this
    have hout : t.running.output = s.running.output := hl.untouched.output
    -- nothing is recorded behind a resolved awaiter but the release of the receiver
    have hsilent : (∀ ev : Event A, ev.acts → (∃ i r, .resolved i r ∈ s.trace) → ev ∉ es) →
        ∀ i r, ∀ ev : Event A, ev.acts → Precedes t.trace ev (.resolved i r) := by
      intro hq i r ev hev
      rw [hl.trace]
      exact Precedes.append.mpr ⟨hs.silent i r ev hev, fun hsub => hno i r (hsub.subset (by simp)),
        fun hir => hq ev hev ⟨i, r, hir⟩⟩
    cases hl.exits with
    | stays hns hnt hr =>
      refine ⟨by rw [hr, hs.inner, hns, hnt], by rw [hr]; exact hs.faithful, fun i r hir => ?_,
        hsilent fun ev _ hir => ?_⟩
      · exact absurd ((hmem i r).mp hir) (hpend hns i r)
      · obtain ⟨i, r, hir⟩ := hir
        exact absurd hir (hpend hns i r)
    | notifies o hps hpt hr he =>
      have hns : s.phase.notice = .pending := by rw [hps]; rfl
      have hin := hs.inner.trans hns
      refine ⟨?_, ?_, fun i r hir => ?_, hsilent fun ev _ hir => ?_⟩
      · rw [hr hin, hpt]
        rfl
      · intro r hor
        rw [hout] at hor
        have := hs.faithful r hor
        rw [hin] at this
        cases this
      · exact absurd ((hmem i r).mp hir) (hpend hns i r)
      · obtain ⟨i, r, hir⟩ := hir
        exact absurd hir (hpend hns i r)
    | drops hpt hr he =>
      refine ⟨by rw [hr, hpt, hs.inner], by rw [hr]; exact hs.faithful, fun i r hir => ?_,
        hsilent fun ev _ _ => by simp [he]⟩
      rw [hr]
      exact hs.resolved i r ((hmem i r).mp hir)
    | releases o hps hpt hr he =>
      refine ⟨?_, by rw [hr]; exact hs.faithful, fun i r hir => ?_, hsilent fun ev hev _ => ?_⟩
      · rw [hr, hs.inner, hps, hpt]
        rfl
      · rw [hr]
        exact hs.resolved i r ((hmem i r).mp hir)
      · rw [he, List.mem_singleton]
        exact hev.2.2

/-- The shared future is completed by the first awaiter that resolves, and by
nothing else. -/
def Awaited (s : Sys A) : Prop := s.running.output ≠ none ↔ ∃ h r, .resolved h r ∈ s.trace

theorem Awaited.step {E : Environment A} {s t : Sys A} {es : List (Event A)} (hs : s.Awaited)
    (h : E.Step s t es) : t.Awaited := by
  have hold : t.trace = s.trace ++ es → t.running.output = s.running.output →
      (∀ i r, .resolved i r ∉ es) → t.Awaited := by
    intro ht ho he
    unfold Awaited at hs ⊢
    rw [ho, hs, ht]
    simp only [List.mem_append, he, or_false]
  cases h with
  | handle l h =>
    have ho := (handleStep_outside h).1
    refine hold ho.trace ?_ (by simp)
    obtain ⟨hl, ar, n, rfl⟩ := handleStep_frame h
    rfl
  | op es h =>
    have ho := (opStep_outside h).1
    refine hold ho.trace (by cases h <;> rfl) fun i r hm => ?_
    cases h <;> simp [mem_returnEvents] at hm
  | loop es hb h =>
    refine hold h.trace h.untouched.output fun i r hm => ?_
    have := h.source _ hm
    simp [Event.source] at this
  | watch es h =>
    have ho := (watchStep_outside h).1
    cases h with
    | await i hd r =>
      exact ⟨fun _ => ⟨i, r, by rw [ho.trace]; simp⟩, fun _ => by simp [Shared.complete]⟩
    | takeDone | take | empty | finish | join | drop => exact hold ho.trace rfl (by simp)

/-! ### The final actor -/

/-- An `Ok` outcome is the actor on which the last `stopped` completed. -/
def Final (s : Sys A) : Prop :=
  ∀ a, s.phase.exit? = some (.ok a) → ∃ pre w n post,
    s.trace = pre ++ .stopped w n a :: post ∧ ∀ ev ∈ post, ¬ ev.acts

theorem LoopStep.exit_ok {E : Environment A} {s t : Sys A} {es : List (Event A)}
    (h : s.LoopStep E t es) {a : A.State} (ha : t.phase.exit? = some (.ok a)) :
    (∃ w n, es = [.stopped w n a]) ∨
      s.phase.exit? = some (.ok a) ∧ ∀ ev ∈ es, ¬ ev.acts := by
  cases h with
  | stopping w hp =>
    cases ha
    exact .inl ⟨w, _, rfl⟩
  | notify o hp | release o hp =>
    refine .inr ⟨?_, by simp [Event.acts]⟩
    rw [hp]
    exact ha
  | dropContext => exact .inr ⟨ha, by simp⟩
  | takeStop | mailboxEnd =>
    simp only [record_phase, Environment.afterLoop] at ha
    split at ha <;> cases ha
  | taskOverran =>
    simp only [Sys.overrun, record_phase] at ha
    split at ha <;> cases ha
  | crash o ho hs =>
    unfold Sys.crash at ha
    rcases ho with ⟨rfl, -⟩ | rfl <;> split at ha <;> cases ha
  | streamPending hp =>
    rw [record_phase, hp] at ha
    cases ha
  | _ => cases ha

theorem Final.step {E : Environment A} {s t : Sys A} {es : List (Event A)} (hs : s.Final)
    (h : E.Step s t es) : t.Final := by
  intro a ha
  rcases h.outside with ⟨ho, -⟩ | ⟨-, hl⟩
  · rw [ho.phase] at ha
    obtain ⟨pre, w, n, post, ht, hpost⟩ := hs a ha
    refine ⟨pre, w, n, post ++ es, by rw [ho.trace, ht, List.append_assoc]; rfl, fun ev hev => ?_⟩
    rcases List.mem_append.mp hev with hev | hev
    · exact hpost ev hev
    · exact fun hacts => not_acts_of_outside ho hacts hev
  · rcases hl.exit_ok ha with ⟨w, n, rfl⟩ | ⟨ha, hes⟩
    · exact ⟨s.trace, w, n, [], hl.trace, fun ev hev => by cases hev⟩
    · obtain ⟨pre, w, n, post, ht, hpost⟩ := hs a ha
      refine ⟨pre, w, n, post ++ es, by rw [hl.trace, ht, List.append_assoc]; rfl, fun ev hev => ?_⟩
      exact (List.mem_append.mp hev).elim (hpost ev) (hes ev)

end Sys

/-! ### Joining -/

def Event.joinPolled? : Event A → Option ℕ
  | .joinPolled j => some j
  | _ => none

/-- The join futures in the order of their first polls. -/
def polledJoins (t : List (Event A)) : List ℕ := t.filterMap Event.joinPolled?

@[simp] theorem polledJoins_append (t u : List (Event A)) :
    polledJoins (t ++ u) = polledJoins t ++ polledJoins u := List.filterMap_append

theorem polledJoins_eq_nil {t : List (Event A)} (h : ∀ ev ∈ t, ev.source ≠ .watch) :
    polledJoins t = [] := by
  refine List.filterMap_eq_nil_iff.mpr fun ev hev => ?_
  cases ev <;> first | rfl | exact absurd rfl (h _ hev)

namespace Sys

/-- The join future polled first gets the task's handle, and with it what the
task returned; the others get nothing. -/
structure Joins (s : Sys A) : Prop where
  slot : s.joinSlot = true → polledJoins s.trace = []
  polled : ∀ j, s.joins[j]? = some .created → j ∉ polledJoins s.trace
  holding : ∀ j, s.joins[j]? = some .holding → (polledJoins s.trace).head? = some j
  empty : s.joinSlot = false → polledJoins s.trace ≠ []
  fresh : ∀ j ∈ polledJoins s.trace, j < s.joins.length
  joined : ∀ j out, .joined j out ∈ s.trace →
    ((polledJoins s.trace).head? = some j → s.phase.output = some out) ∧
      j ∈ polledJoins s.trace

/-- No join future is polled for the first time; what is `created` or `holding`
was so before, or is new. -/
theorem Joins.keep {s t : Sys A} {es : List (Event A)} (hs : s.Joins)
    (ht : t.trace = s.trace ++ es) (he : polledJoins es = []) (hslot : t.joinSlot = s.joinSlot)
    (hc : ∀ k : ℕ, t.joins[k]? = some .created →
      s.joins[k]? = some .created ∨ s.joins.length ≤ k)
    (hh : ∀ k : ℕ, t.joins[k]? = some .holding → s.joins[k]? = some .holding)
    (hlen : s.joins.length ≤ t.joins.length)
    (hp : ∀ out, s.phase.output = some out → t.phase.output = some out)
    (hes : ∀ k out, .joined k out ∈ es →
      s.joins[k]? = some .holding ∧ t.phase.output = some out) : t.Joins := by
  have hpl : polledJoins t.trace = polledJoins s.trace := by
    rw [ht, polledJoins_append, he, List.append_nil]
  refine ⟨?_, ?_, ?_, ?_, ?_, ?_⟩
  · rw [hpl, hslot]
    exact hs.slot
  · rw [hpl]
    intro k hk
    rcases hc k hk with hk | hk
    · exact hs.polled k hk
    · exact fun hmem => absurd (hs.fresh k hmem) (Nat.not_lt.mpr hk)
  · rw [hpl]
    exact fun k hk => hs.holding k (hh k hk)
  · rw [hpl, hslot]
    exact hs.empty
  · rw [hpl]
    exact fun k hk => Nat.lt_of_lt_of_le (hs.fresh k hk) hlen
  · intro k out hmem
    rw [hpl]
    rw [ht, List.mem_append] at hmem
    rcases hmem with hmem | hmem
    · obtain ⟨hd, hin⟩ := hs.joined k out hmem
      exact ⟨fun h => hp out (hd h), hin⟩
    · obtain ⟨hk, ho⟩ := hes k out hmem
      exact ⟨fun _ => ho, List.mem_of_mem_head? (hs.holding k hk)⟩

theorem polledJoins_of_source {es : List (Event A)} (h : ∀ ev ∈ es, ev.source ≠ .watch) :
    polledJoins es = [] ∧ ∀ k out, .joined k out ∉ es :=
  ⟨polledJoins_eq_nil h, fun _ _ hmem => h _ hmem rfl⟩

/-- The first poll of a join future: where nothing was polled before it gets the
handle, else nothing is left for it. -/
theorem Joins.poll {s t : Sys A} {j : ℕ} {es : List (Event A)} (st : JoinState A) (hs : s.Joins)
    (hj : s.joins[j]? = some .created) (ht : t.trace = s.trace ++ .joinPolled j :: es)
    (he : polledJoins es = []) (hst : st ≠ .created) (hjoins : t.joins = s.joins.set j st)
    (hslot : t.joinSlot = false) (hhold : st = .holding → s.joinSlot = true)
    (hp : t.phase = s.phase)
    (hes : ∀ i out, .joined i out ∈ es → i = j ∧ (s.joinSlot = true → s.phase.output = some out)) :
    t.Joins := by
  have hpl : polledJoins t.trace = polledJoins s.trace ++ [j] := by
    rw [ht, polledJoins_append]
    show _ ++ j :: polledJoins es = _
    rw [he]
  have hlt := (List.getElem?_eq_some_iff.mp hj).1
  have hhead : ∀ k, (polledJoins s.trace).head? = some k →
      (polledJoins s.trace ++ [j]).head? = some k := by
    intro k hk
    rw [List.head?_append, hk]
    rfl
  refine ⟨?_, ?_, ?_, ?_, ?_, ?_⟩
  · intro h
    rw [hslot] at h
    cases h
  · intro k hk hmem
    rw [hjoins] at hk
    rw [hpl, List.mem_append, List.mem_singleton] at hmem
    rcases Table.getElem?_set_cases hk with ⟨-, h⟩ | ⟨hne, hk⟩
    · exact hst h.symm
    · exact hmem.elim (hs.polled k hk) fun h => hne h.symm
  · intro k hk
    rw [hjoins] at hk
    rw [hpl]
    rcases Table.getElem?_set_cases hk with ⟨rfl, h⟩ | ⟨-, hk⟩
    · -- the handle was in the slot, so nobody had polled before
      rw [hs.slot (hhold h.symm)]
      rfl
    · exact hhead k (hs.holding k hk)
  · rw [hpl]
    exact fun _ => by simp
  · intro k hmem
    rw [hpl, List.mem_append, List.mem_singleton] at hmem
    rw [hjoins, List.length_set]
    exact hmem.elim (hs.fresh k) fun h => h ▸ hlt
  · intro k out hmem
    rw [ht, List.mem_append, List.mem_cons] at hmem
    rw [hpl, hp]
    have hkj : Event.joined k out ≠ .joinPolled j := by simp
    rcases hmem with hmem | hmem
    · -- an earlier result: the head of the list is settled
      obtain ⟨hd, hin⟩ := hs.joined k out hmem
      refine ⟨fun h => hd ?_, List.mem_append_left _ hin⟩
      rw [List.head?_append_of_ne_nil _ (List.ne_nil_of_mem hin)] at h
      exact h
    · obtain ⟨rfl, hout⟩ := hes k out (hmem.resolve_left hkj)
      refine ⟨fun h => hout ?_, by simp⟩
      rw [← Bool.not_eq_false]
      intro hsf
      have hne := hs.empty hsf
      rw [List.head?_append_of_ne_nil _ hne] at h
      exact hs.polled k hj (List.mem_of_mem_head? h)

theorem Joins.watchStep {s t : Sys A} {es : List (Event A)} (hs : s.Joins)
    (h : s.WatchStep t es) : t.Joins := by
  have hset : ∀ (j k : ℕ) (x y : JoinState A), x ≠ y → (s.joins.set j x)[k]? = some y →
      s.joins[k]? = some y := by
    intro j k x y hxy hk
    rcases Table.getElem?_set_cases hk with ⟨-, h⟩ | ⟨-, hk⟩
    · exact absurd h.symm hxy
    · exact hk
  cases h with
  | await i hd r =>
    exact hs.keep rfl rfl rfl (fun _ hk => .inl hk) (fun _ hk => hk) (Nat.le_refl _)
      (fun _ ho => ho) (by simp)
  | join =>
    refine hs.keep (List.append_nil _).symm rfl rfl (fun k hk => ?_) (fun k hk => ?_) (by simp)
      (fun _ ho => ho) (by simp)
    all_goals rcases Nat.lt_or_ge k s.joins.length with hlt | hge
    · rw [List.getElem?_append_left hlt] at hk
      exact .inl hk
    · exact .inr hge
    · rw [List.getElem?_append_left hlt] at hk
      exact hk
    · rw [List.getElem?_append_right hge, List.getElem?_singleton] at hk
      split at hk <;> cases hk
  | takeDone j out hj hsl ho =>
    refine hs.poll (.done out) hj rfl rfl (by simp) rfl rfl (by simp) rfl fun i out' hmem => ?_
    simp only [List.mem_singleton, Event.joined.injEq] at hmem
    exact ⟨hmem.1, fun _ => hmem.2 ▸ ho⟩
  | take j hj hsl ho =>
    exact hs.poll .holding hj rfl rfl (by simp) rfl rfl (fun _ => hsl) rfl (by simp)
  | empty j hj hsl =>
    refine hs.poll (.done none) hj rfl rfl (by simp) rfl hsl (by simp) rfl fun i out' hmem => ?_
    simp only [List.mem_singleton, Event.joined.injEq] at hmem
    exact ⟨hmem.1, fun h => absurd (hsl.symm.trans h) (by simp)⟩
  | finish j out hj ho =>
    refine hs.keep rfl rfl rfl (fun k hk => .inl (hset j k _ _ (by simp) hk))
      (fun k hk => hset j k _ _ (by simp) hk) (by simp) (fun _ ho => ho) fun k out' hmem => ?_
    simp only [List.mem_singleton, Event.joined.injEq] at hmem
    obtain ⟨rfl, rfl⟩ := hmem
    exact ⟨hj, ho⟩
  | drop j st hj hd =>
    exact hs.keep (List.append_nil _).symm rfl rfl (fun k hk => .inl (hset j k _ _ (by simp) hk))
      (fun k hk => hset j k _ _ (by simp) hk) (by simp) (fun _ ho => ho) (by simp)

/-- Only who joins or awaits moves the task's handle. -/
theorem step_watches_or_quiet {E : Environment A} {s t : Sys A} {es : List (Event A)}
    (h : E.Step s t es) : s.WatchStep t es ∨ (∀ ev ∈ es, ev.source ≠ .watch) ∧
      t.joins = s.joins ∧ t.joinSlot = s.joinSlot ∧
      ∀ out, s.phase.output = some out → t.phase.output = some out := by
  cases h with
  | handle l h =>
    obtain ⟨hl, ar, n, rfl⟩ := handleStep_frame h
    exact .inr ⟨by simp, rfl, rfl, fun _ ho => ho⟩
  | op es h =>
    have hsrc : ∀ ev ∈ es, ev.source ≠ .watch := by
      cases h <;> simp +contextual [mem_returnEvents, Event.source]
    cases h <;> exact .inr ⟨hsrc, rfl, rfl, fun _ ho => ho⟩
  | loop es hb h =>
    refine .inr ⟨fun ev hev => by simp [h.source ev hev], h.untouched.joins,
      h.untouched.joinSlot, fun out ho => ?_⟩
    -- the task has returned only where its future has ended
    have hn := h.not_ended
    cases hp : s.phase <;> simp [hp, Phase.output, Phase.isEnded] at ho hn
  | watch es h => exact .inl h

theorem Joins.step {E : Environment A} {s t : Sys A} {es : List (Event A)} (hs : s.Joins)
    (h : E.Step s t es) : t.Joins := by
  rcases step_watches_or_quiet h with hw | ⟨hes, hj, hsl, hp⟩
  · exact hs.watchStep hw
  · obtain ⟨hpl, hno⟩ := polledJoins_of_source hes
    exact hs.keep h.trace hpl hsl (fun k hk => .inl (hj ▸ hk)) (fun k hk => hj ▸ hk)
      (Nat.le_of_eq (congrArg List.length hj).symm) hp fun k out hmem => absurd hmem (hno k out)

end Sys

namespace Environment.Reachable

variable {E : Environment A} {a : A.State} {c : A.Ctx} {s : Sys A}

theorem awaited (h : E.Reachable a c s) : s.Awaited :=
  reachable_induction (P := Sys.Awaited) ⟨fun hn => absurd rfl hn, fun ⟨_, _, hm⟩ => by cases hm⟩
    (fun _ _ _ _ _ hs hst => hs.step hst) h

theorem unwinds (h : E.Reachable a c s) : s.Unwinds := by
  refine reachable_induction ⟨fun hd => ?_, fun _ _ => rfl, fun _ hp => ?_, fun _ hp => ?_⟩
    (fun _ _ _ _ _ hs hst => hs.step hst) h
  · cases hd
  · cases hp
  · cases hp

theorem notified (h : E.Reachable a c s) : s.Notified := by
  refine reachable_induction ⟨rfl, ?_, ?_, fun _ _ _ _ => Precedes.nil⟩
    (fun _ _ _ _ _ hs hst => hs.step hst) h
  · intro r hr
    cases hr
  · intro i r hmem
    cases hmem

theorem final (h : E.Reachable a c s) : s.Final := by
  refine reachable_induction (P := Sys.Final) ?_ (fun _ _ _ _ _ hs hst => hs.step hst) h
  intro b hb
  cases hb

theorem joins (h : E.Reachable a c s) : s.Joins := by
  refine reachable_induction ⟨fun _ => rfl, ?_, ?_, ?_, ?_, ?_⟩
    (fun _ _ _ _ _ hs hst => hs.step hst) h
  · intro j hj
    cases hj
  · intro j hj
    cases hj
  · intro hj
    cases hj
  · intro j hj
    cases hj
  · intro j out hj
    cases hj

end Environment.Reachable

/-! ### Agreement -/

/-- What all observers of an actor's end see. -/
structure Agreement (s : Sys A) : Prop where
  /-- An awaited `Addr` resolves only where the outcome is settled, and to it. -/
  resolved : ∀ h r, .resolved h r ∈ s.trace →
    ∃ o, (s.phase = .releasing o ∨ s.phase = .ended o) ∧
      (r = .ok () ↔ ∃ a, o = .ok a) ∧ (r = .error ⟨⟩ ↔ ∀ a, o ≠ .ok a)
  agree : ∀ h h' r r', .resolved h r ∈ s.trace → .resolved h' r' ∈ s.trace → r = r'
  /-- Once the future has ended, every awaited `Addr` does resolve. -/
  resolves : ∀ o, s.phase = .ended o → ∃ r, s.running.poll = .ready r ∧
    (r = .ok () ↔ ∃ a, o = .ok a)
  /-- No hook and no handler runs behind it. -/
  silent : ∀ h r, ∀ ev : Event A, ev.acts → ¬ [.resolved h r, ev] <+ s.trace
  /-- With an `Ok` outcome the first join yields the actor on which the final
  `stopped` completed. -/
  joined : ∀ j out, (polledJoins s.trace).head? = some j → .joined j out ∈ s.trace →
    ∃ o, s.phase = .ended o ∧ ∀ a, o = .ok a → out = some a ∧ ∃ pre w n post,
      s.trace = pre ++ .stopped w n a :: post ∧ ∀ ev ∈ post, ¬ ev.acts

/-- **All observers agree on how an actor ended.** -/
theorem observers_agree {E : Environment A} {a : A.State} {c : A.Ctx} {s : Sys A}
    (h : E.Reachable a c s) : Agreement s where
  resolved := by
    intro i r hmem
    have hpoll := h.notified.resolved i r hmem
    rw [h.notified.inner] at hpoll
    have hne : s.phase.notice ≠ .pending := by
      intro hn
      rw [hn] at hpoll
      cases hpoll
    obtain ⟨o, hp, hno⟩ := Phase.exit_of_notice hne
    rw [hno] at hpoll
    refine ⟨o, hp, ?_, ?_⟩
    · rw [← Exit.notice_poll_ok, hpoll, Poll.ready.injEq]
    · rw [← Exit.notice_poll_error, hpoll, Poll.ready.injEq]
  agree := by
    intro i j r r' hr hr'
    have := (h.notified.resolved i r hr).symm.trans (h.notified.resolved j r' hr')
    simpa using this
  resolves := by
    intro o hp
    obtain ⟨r, hr⟩ := o.notice_poll
    refine ⟨r, ?_, ?_⟩
    · rw [Shared.poll_eq_ready h.notified.faithful, h.notified.inner, hp]
      exact hr
    · rw [← Exit.notice_poll_ok, hr, Poll.ready.injEq]
  silent := fun i r ev hev => h.notified.silent i r ev hev
  joined := by
    intro j out hd hmem
    have ho := (h.joins.joined j out hmem).1 hd
    cases hp : s.phase with
    | ended o =>
      refine ⟨o, rfl, ?_⟩
      rintro a rfl
      rw [hp] at ho
      exact ⟨(Option.some_inj.mp ho).symm, h.final a (by rw [hp]; rfl)⟩
    | _ => simp [hp, Phase.output] at ho

/-- A stopped actor is awaited and joined. -/
theorem observers_agree_after_stop :
    ∃ s, Tally.plain.system.run (Tally.spawn Tally.plain)
        [.handle (.derive 0 .addr), .op (.begin .stop 0), .op (.push 0), .loop (.hook true),
          .loop .recv, .loop (.hook true), .loop .notify, .loop .dropContext, .loop .release,
          .watch (.await 1), .watch (.join 0), .watch (.pollJoin 0)] = some s ∧
      s.trace[8]? = some (.resolved 1 (.ok ())) ∧ s.trace[10]? = some (.joined 0 (some (0 : ℕ))) ∧
      Agreement s :=
  ⟨_, rfl, rfl, rfl, observers_agree (Tally.reachable (E := Tally.plain)
    [.handle (.derive 0 .addr), .op (.begin .stop 0), .op (.push 0), .loop (.hook true),
      .loop .recv, .loop (.hook true), .loop .notify, .loop .dropContext, .loop .release,
      .watch (.await 1), .watch (.join 0), .watch (.pollJoin 0)] rfl)⟩

end Hannibal
