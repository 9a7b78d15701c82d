/-
The cleanup hook.

What the loop does is read off the history by its last call of `started`: whether
it returned `Ok`, and what was recorded since (`lastStart`).  A started actor stays
`up` until its `stopped` hook runs, which is once on every exit but one: a fatal
timeout leaves the loop by an early return.

* `Cleaned` — what happened since the last `started`, by the phase of the loop;
* **`stopped_once_iff`** — a started actor whose loop's future resolves was stopped
  once, exactly if no task overran while that is fatal.
-/
import Hannibal.Completion

namespace Hannibal

variable {A : Actor}

/-! ### Since the last start -/

def Event.isStopped : Event A → Bool
  | .stopped _ _ _ => true
  | _ => false

def Event.isStarted : Event A → Bool
  | .started _ _ _ => true
  | _ => false

def Event.isOverran : Event A → Bool
  | .overran _ => true
  | _ => false

/-- The last call of `started`: the number of the actor value it was made on, its result,
and what was recorded since. -/
structure LastStart (A : Actor) where
  number : ℕ
  ok : Bool
  since : List (Event A)

namespace LastStart

def feed (r : Option (LastStart A)) : Event A → Option (LastStart A)
  | .started _ n ok => some ⟨n, ok, []⟩
  | ev => r.map fun l => { l with since := l.since ++ [ev] }

/-- `stopped` was called exactly once on that value, and the loop did nothing with it
afterwards. -/
def StoppedOnce (l : LastStart A) : Prop :=
  ∃ v w a r, l.since = v ++ .stopped w l.number a :: r ∧ (∀ ev ∈ v, ev.isStopped = false) ∧
    ∀ ev ∈ r, ¬ ev.acts

/-- `stopped` was not called. -/
def Up (l : LastStart A) : Prop := l.ok = true ∧ ∀ ev ∈ l.since, ev.isStopped = false

end LastStart

def lastStart (t : List (Event A)) : Option (LastStart A) := t.foldl LastStart.feed none

theorem lastStart_append (t u : List (Event A)) :
    lastStart (t ++ u) = u.foldl LastStart.feed (lastStart t) := List.foldl_append

theorem feed_quiet {u : List (Event A)} (h : ∀ ev ∈ u, ev.isStarted = false)
    (r : Option (LastStart A)) :
    u.foldl LastStart.feed r = r.map fun l => { l with since := l.since ++ u } := by
  induction u generalizing r with
  | nil => cases r <;> simp
  | cons ev u ih =>
    have hev := h ev (by simp)
    have hfeed : LastStart.feed r ev = r.map fun l => { l with since := l.since ++ [ev] } := by
      cases ev with
      | started => cases hev
      | _ => rfl
    rw [List.foldl_cons, ih (fun e he => h e (by simp [he])), hfeed]
    cases r <;> simp

/-- Events without a `started` come after the last one. -/
theorem lastStart_quiet {t u : List (Event A)} {l : LastStart A} (ht : lastStart t = some l)
    (h : ∀ ev ∈ u, ev.isStarted = false) :
    lastStart (t ++ u) = some { l with since := l.since ++ u } := by
  rw [lastStart_append, feed_quiet h, ht]
  rfl

theorem lastStart_started (t : List (Event A)) (w : A.World) (n : ℕ) (ok : Bool)
    {u : List (Event A)} (h : ∀ ev ∈ u, ev.isStarted = false) :
    lastStart (t ++ .started w n ok :: u) = some ⟨n, ok, u⟩ := by
  rw [lastStart_append, List.foldl_cons, feed_quiet h]
  rfl

/-- What the loop does not do with the actor is none of its hooks. -/
theorem Event.quiet_of_not_acts {ev : Event A} (h : ¬ ev.acts) :
    ev.isStarted = false ∧ ev.isStopped = false ∧ ev.isOverran = false := by
  cases ev <;> first | exact ⟨rfl, rfl, rfl⟩ | exact absurd ⟨rfl, by simp, by simp⟩ h

/-! ### The phases of the loop -/

/-- `started` returned `Ok` and `stopped` is still to be called. -/
def Phase.up : Phase A → Bool
  | .receiving => true
  | .task _ _ => true
  | .refreshStopping _ => true
  | .item _ _ => true
  | .finishing => true
  | .stopping => true
  | _ => false

theorem Phase.exit_of_up {p : Phase A} (h : p.up = true) : p.exit? = none := by
  cases p <;> first | rfl | cases h

theorem Environment.afterLoop_up (E : Environment A) : E.afterLoop.up = true := by
  unfold afterLoop
  split <;> rfl

namespace Sys

/-- What a step of the loop does for the cleanup. -/
inductive Cleans (E : Environment A) (s t : Sys A) (es : List (Event A)) : Prop where
  | starts (w : A.World) (u : List (Event A)) (he : es = .started w s.incarnation true :: u)
      (hu : ∀ ev ∈ u, ev.isStarted = false ∧ ev.isStopped = false ∧ ev.isOverran = false)
      (hs : s.phase.exit? = none) (ht : t.phase.up = true) (hn : t.incarnation = s.incarnation)
  | fails (w : A.World) (e : A.Error) (he : es = [.started w s.incarnation false])
      (hs : s.phase.exit? = none) (ht : t.phase.exit? = some (.err (.hook e)))
  | works (he : ∀ ev ∈ es, ev.isStarted = false ∧ ev.isStopped = false)
      (ho : E.config.failOnTimeout = true → ∀ ev ∈ es, ev.isOverran = false)
      (hs : s.phase.up = true) (ht : t.phase.up = true) (hn : t.incarnation = s.incarnation)
  | refreshes (he : ∀ ev ∈ es, ev.isOverran = false) (hs : s.phase.up = true)
      (ht : t.phase.up = false) (hx : t.phase.exit? = none)
  | stops (w : A.World) (a : A.State) (he : es = [.stopped w s.incarnation a])
      (hs : s.phase.up = true) (ht : t.phase.exit? = some (.ok a))
  | overruns (i : ℕ) (he : .overran i ∈ es)
      (hes : ∀ ev ∈ es, ev.isStarted = false ∧ ev.isStopped = false)
      (hE : E.config.failOnTimeout = true) (hs : s.phase.up = true)
      (ht : t.phase.exit? = some (.err .timeout))
  | crashes (he : ∀ ev ∈ es, ev.isOverran = false) (hs : s.phase.exit? = none)
      (ht : t.phase.exit? = some .panicked ∨ t.phase.exit? = some .dropped)
  | exits (he : ∀ ev ∈ es, ¬ ev.acts) (hs : s.phase.up = false) (ht : t.phase.up = false)
      (hx : t.phase.exit? = s.phase.exit?)

theorem Receives.quiet {E : Environment A} {s : Sys A} {es : List (Event A)}
    (h : s.Receives E es) : s.phase.up = true ∧
      ∀ ev ∈ es, ev.isStarted = false ∧ ev.isStopped = false ∧ ev.isOverran = false := by
  obtain ⟨hp, rfl | rfl⟩ := h.events
  · exact ⟨by rw [hp]; rfl, by simp⟩
  · exact ⟨by rw [hp]; rfl, by simp [Event.isStarted, Event.isStopped, Event.isOverran]⟩

theorem LoopStep.cleans {E : Environment A} {s t : Sys A} {es : List (Event A)}
    (h : s.LoopStep E t es) : s.Cleans E t es := by
  -- a round that receives records nothing of the hooks before
  have hround : ∀ {es u : List (Event A)}, s.Receives E es →
      (∀ ev ∈ u, ev.isStarted = false ∧ ev.isStopped = false ∧ ev.isOverran = false) →
      ∀ ev ∈ es ++ u, ev.isStarted = false ∧ ev.isStopped = false ∧ ev.isOverran = false := by
    intro es u hr hu ev hev
    exact (List.mem_append.mp hev).elim (hr.quiet.2 ev) (hu ev)
  cases h with
  | startOk w es a c u hp h =>
    cases hp with
    | first hp => exact .starts w [] rfl (by simp) (by rw [hp]; rfl) rfl rfl
    | refresh i hp =>
      exact .starts w [.refreshed i] rfl
        (by simp [Event.isStarted, Event.isStopped, Event.isOverran]) (by rw [hp]; rfl) rfl rfl
  | startErr w es e a c hp h =>
    cases hp with
    | first hp | refresh i hp => exact .fails w e rfl (by rw [hp]; rfl) rfl
  | refreshStop w i hp hR | recreate w i hp hR =>
    exact .refreshes (by simp [Event.isOverran]) (by rw [hp]; rfl) rfl rfl
  | finishing w hp =>
    exact .works (by simp [Event.isStarted, Event.isStopped]) (by simp [Event.isOverran])
      (by rw [hp]; rfl) rfl rfl
  | stopping w hp => exact .stops w _ rfl (by rw [hp]; rfl) rfl
  | takeTask es e q f hr hq hf =>
    have hes := hround hr (u := [.taken e, .begun e.id s.incarnation])
      (by simp [Event.isStarted, Event.isStopped, Event.isOverran])
    exact .works (fun ev hev => ⟨(hes ev hev).1, (hes ev hev).2.1⟩)
      (fun _ ev hev => (hes ev hev).2.2) hr.quiet.1 rfl rfl
  | takeStop es e q hr hq hf =>
    have hes := hround hr (u := [.taken e])
      (by simp [Event.isStarted, Event.isStopped, Event.isOverran])
    exact .works (fun ev hev => ⟨(hes ev hev).1, (hes ev hev).2.1⟩)
      (fun _ ev hev => (hes ev hev).2.2) hr.quiet.1 E.afterLoop_up rfl
  | takeRestart e q hp hs hq hf hR =>
    exact .works (by simp [Event.isStarted, Event.isStopped]) (by simp [Event.isOverran])
      (by rw [hp]; rfl) rfl rfl
  | ignoreRestart e q hp hs hq hf hR =>
    exact .works (by simp [Event.isStarted, Event.isStopped]) (by simp [Event.isOverran])
      (by rw [hp]; rfl) rfl rfl
  | restartPanic es e q hr hs hq hf =>
    have hes := hround hr (u := [.taken e])
      (by simp [Event.isStarted, Event.isStopped, Event.isOverran])
    exact .crashes (fun ev hev => (hes ev hev).2.2) (Phase.exit_of_up hr.quiet.1) (.inl rfl)
  | mailboxEnd es hr hq hc =>
    have hes := hround hr (u := [.mailboxEnd])
      (by simp [Event.isStarted, Event.isStopped, Event.isOverran])
    exact .works (fun ev hev => ⟨(hes ev hev).1, (hes ev hev).2.1⟩)
      (fun _ ev hev => (hes ev hev).2.2) hr.quiet.1 E.afterLoop_up rfl
  | takeItem items x hp | streamEnd items hp =>
    exact .works (by simp [Event.isStarted, Event.isStopped]) (by simp [Event.isOverran])
      (by rw [hp]; rfl) rfl rfl
  | streamPending hp =>
    have hup : s.phase.up = true := by rw [hp]; rfl
    exact .works (by simp [Event.isStarted, Event.isStopped]) (by simp [Event.isOverran]) hup hup
      rfl
  | taskPending i w sel fut fut' a c hp h | taskDone i w sel fut reply a c hp h
  | itemPending x w fut fut' a c hp h | itemDone x w fut r a c hp h =>
    exact .works (by simp [Event.isStarted, Event.isStopped]) (by simp [Event.isOverran])
      (by rw [hp]; rfl) rfl rfl
  | taskOverran i w sel fut a c hp h =>
    have hes : ∀ ev ∈ [Event.polled w sel fut, .overran i],
        ev.isStarted = false ∧ ev.isStopped = false := by
      simp [Event.isStarted, Event.isStopped]
    by_cases hE : E.config.failOnTimeout = true
    · refine .overruns i (by simp) hes hE (by rw [hp]; rfl) ?_
      simp [Sys.overrun, hE, Phase.exit?]
    · refine .works hes (fun h => absurd h hE) (by rw [hp]; rfl) ?_ rfl
      simp [Sys.overrun, hE, Phase.up]
  | crash o ho hs =>
    refine .crashes (by simp) ?_ ?_
    · cases hp : s.phase <;> simp [suspended, hp] at hs <;> rfl
    · rcases ho with ⟨rfl, -⟩ | rfl <;> unfold Sys.crash <;> split <;>
        first | exact .inl rfl | exact .inr rfl
  | notify o hp =>
    exact .exits (by simp [Event.acts]) (by rw [hp]; rfl) rfl (by rw [hp]; rfl)
  | dropContext hd =>
    have hup : s.phase.up = false := by
      obtain ⟨o, hp | hp⟩ := phase_of_dropsContext hd <;> rw [hp] <;> rfl
    exact .exits (by simp) hup hup rfl
  | release o hp =>
    exact .exits (by simp [Event.acts]) (by rw [hp]; rfl) rfl (by rw [hp]; rfl)

/-- What happened since the last `started`. -/
structure Cleaned (E : Environment A) (s : Sys A) : Prop where
  up : s.phase.up = true → ∃ l, lastStart s.trace = some l ∧ l.number = s.incarnation ∧ l.Up
  ok : ∀ a, s.phase.exit? = some (.ok a) →
    ∃ l, lastStart s.trace = some l ∧ l.ok = true ∧ l.StoppedOnce
  timeout : s.phase.exit? = some (.err .timeout) → ∃ l, lastStart s.trace = some l ∧ l.Up
  hook : ∀ e, s.phase.exit? = some (.err (.hook e)) →
    ∃ l, lastStart s.trace = some l ∧ l.ok = false
  fatal : E.config.failOnTimeout = true ∧ (∃ ev ∈ s.trace, ev.isOverran = true) ↔
    s.phase.exit? = some (.err .timeout)

theorem Cleaned.init (E : Environment A) (a : A.State) (c : A.Ctx) :
    (E.init a c).Cleaned E where
  up := fun h => by cases h
  ok := fun _ h => by cases h
  timeout := fun h => by cases h
  hook := fun _ h => by cases h
  fatal := by
    refine ⟨fun ⟨_, _, hm, _⟩ => ?_, fun h => ?_⟩
    · cases hm
    · cases h

/-- Nothing of the hooks is recorded, and the phase tells the same. -/
theorem Cleaned.quiet {E : Environment A} {s t : Sys A} {es : List (Event A)}
    (hs : s.Cleaned E) (ht : t.trace = s.trace ++ es) (hes : ∀ ev ∈ es, ¬ ev.acts)
    (hup : t.phase.up = s.phase.up) (hx : t.phase.exit? = s.phase.exit?)
    (hn : s.phase.up = true → t.incarnation = s.incarnation) : t.Cleaned E := by
  have hquiet : ∀ {l : LastStart A}, lastStart s.trace = some l →
      lastStart t.trace = some { l with since := l.since ++ es } := by
    intro l hl
    rw [ht]
    exact lastStart_quiet hl fun ev hev => (Event.quiet_of_not_acts (hes ev hev)).1
  have hUp : ∀ {l : LastStart A}, l.Up → LastStart.Up { l with since := l.since ++ es } := by
    rintro l ⟨hok, hl⟩
    refine ⟨hok, fun ev hev => ?_⟩
    rcases List.mem_append.mp hev with hev | hev
    · exact hl ev hev
    · exact (Event.quiet_of_not_acts (hes ev hev)).2.1
  refine ⟨fun h => ?_, fun a ha => ?_, fun h => ?_, fun e he => ?_, ?_⟩
  · rw [hup] at h
    obtain ⟨l, hl, hnum, hu⟩ := hs.up h
    exact ⟨_, hquiet hl, hnum.trans (hn h).symm, hUp hu⟩
  · obtain ⟨l, hl, hok, v, w, b, r, hsince, hv, hr⟩ := hs.ok a (hx ▸ ha)
    refine ⟨_, hquiet hl, hok, v, w, b, r ++ es, by simp [hsince], hv, fun ev hev => ?_⟩
    rcases List.mem_append.mp hev with hev | hev
    · exact hr ev hev
    · exact hes ev hev
  · obtain ⟨l, hl, hu⟩ := hs.timeout (hx ▸ h)
    exact ⟨_, hquiet hl, hUp hu⟩
  · obtain ⟨l, hl, hok⟩ := hs.hook e (hx ▸ he)
    exact ⟨_, hquiet hl, hok⟩
  · rw [hx, ← hs.fatal, ht]
    refine and_congr_right fun _ => ⟨fun ⟨ev, hev, ho⟩ => ?_, fun ⟨ev, hev, ho⟩ =>
      ⟨ev, List.mem_append_left _ hev, ho⟩⟩
    rcases List.mem_append.mp hev with hev | hev
    · exact ⟨ev, hev, ho⟩
    · rw [(Event.quiet_of_not_acts (hes ev hev)).2.2] at ho
      cases ho

/-- A task that did not overrun leaves it open whether one did. -/
theorem Cleaned.fatal_append {E : Environment A} {s t : Sys A} {es : List (Event A)}
    (hs : s.Cleaned E) (ht : t.trace = s.trace ++ es)
    (hes : E.config.failOnTimeout = true → ∀ ev ∈ es, ev.isOverran = false)
    (hx : s.phase.exit? = none) (hy : t.phase.exit? ≠ some (.err .timeout)) :
    E.config.failOnTimeout = true ∧ (∃ ev ∈ t.trace, ev.isOverran = true) ↔
      t.phase.exit? = some (.err .timeout) := by
  refine ⟨fun ⟨hE, ev, hev, ho⟩ => ?_, fun h => absurd h hy⟩
  rw [ht] at hev
  rcases List.mem_append.mp hev with hev | hev
  · have h := hs.fatal.mp ⟨hE, ev, hev, ho⟩
    rw [hx] at h
    cases h
  · rw [hes hE ev hev] at ho
    cases ho

theorem Cleaned.loopStep {E : Environment A} {s t : Sys A} {es : List (Event A)}
    (hs : s.Cleaned E) (h : s.LoopStep E t es) : t.Cleaned E := by
  have ht := h.trace
  -- while the loop stays up, what it records is added to what happened since the start
  have hup : s.phase.up = true → (∀ ev ∈ es, ev.isStarted = false ∧ ev.isStopped = false) →
      ∃ l, lastStart t.trace = some l ∧ l.number = s.incarnation ∧ l.Up := by
    intro hp hes
    obtain ⟨l, hl, hnum, hok, hu⟩ := hs.up hp
    refine ⟨⟨l.number, l.ok, l.since ++ es⟩, ?_, hnum, hok, fun ev hev => ?_⟩
    · rw [ht]
      exact lastStart_quiet hl fun ev hev => (hes ev hev).1
    · rcases List.mem_append.mp hev with hev | hev
      · exact hu ev hev
      · exact (hes ev hev).2
  cases h.cleans with
  | starts w u he hu hx hp hn =>
    have hy := Phase.exit_of_up hp
    refine ⟨fun _ => ⟨_, ht ▸ he ▸ lastStart_started _ w _ _ fun ev hev => (hu ev hev).1, hn.symm,
      rfl, fun ev hev => (hu ev hev).2.1⟩, by simp [hy], by simp [hy], by simp [hy], ?_⟩
    refine hs.fatal_append ht (fun _ ev hev => ?_) hx (by simp [hy])
    rw [he] at hev
    rcases List.mem_cons.mp hev with rfl | hev
    · rfl
    · exact (hu ev hev).2.2
  | fails w e he hx hp =>
    have hup : t.phase.up = true → False := fun h => by simp [Phase.exit_of_up h] at hp
    refine ⟨fun h => (hup h).elim, by simp [hp], by simp [hp], fun e' _ =>
      ⟨_, ht ▸ he ▸ lastStart_started _ w _ _ (by simp), rfl⟩, ?_⟩
    exact hs.fatal_append ht (fun _ => by simp [he, Event.isOverran]) hx (by simp [hp])
  | works he ho hp hq hn =>
    have hy := Phase.exit_of_up hq
    obtain ⟨l, hl, hnum, hu⟩ := hup hp he
    exact ⟨fun _ => ⟨l, hl, hnum.trans hn.symm, hu⟩, by simp [hy], by simp [hy], by simp [hy],
      hs.fatal_append ht ho (Phase.exit_of_up hp) (by simp [hy])⟩
  | refreshes ho hp hq hy =>
    exact ⟨by simp [hq], by simp [hy], by simp [hy], by simp [hy],
      hs.fatal_append ht (fun _ => ho) (Phase.exit_of_up hp) (by simp [hy])⟩
  | stops w a he hp hy =>
    have hup : t.phase.up = true → False := fun h => by simp [Phase.exit_of_up h] at hy
    refine ⟨fun h => (hup h).elim, fun b _ => ?_, by simp [hy], by simp [hy],
      hs.fatal_append ht (by simp [he, Event.isOverran]) (Phase.exit_of_up hp) (by simp [hy])⟩
    obtain ⟨l, hl, hnum, hok, hu⟩ := hs.up hp
    refine ⟨⟨l.number, l.ok, l.since ++ es⟩, ?_, hok, l.since, w, a, [], ?_, hu, by simp⟩
    · rw [ht]
      exact lastStart_quiet hl (by simp [he, Event.isStarted])
    · show l.since ++ es = _
      rw [he, hnum]
  | overruns i hi he hE hp hy =>
    have hq : t.phase.up = true → False := fun h => by simp [Phase.exit_of_up h] at hy
    obtain ⟨l, hl, -, hu⟩ := hup hp he
    refine ⟨fun h => (hq h).elim, by simp [hy], fun _ => ⟨l, hl, hu⟩, by simp [hy],
      fun _ => hy, fun _ => ⟨hE, .overran i, ?_, rfl⟩⟩
    rw [ht]
    exact List.mem_append_right _ hi
  | crashes ho hx hy =>
    have hq : t.phase.up = true → False := fun h => by simp [Phase.exit_of_up h] at hy
    refine ⟨fun h => (hq h).elim, ?_, ?_, ?_, hs.fatal_append ht (fun _ => ho) hx ?_⟩ <;>
      rcases hy with hy | hy <;> simp [hy]
  | exits he hp hq hy => exact hs.quiet ht he (hq.trans hp.symm) hy fun h => by simp [hp] at h

theorem Cleaned.step {E : Environment A} {s t : Sys A} {es : List (Event A)} (hs : s.Cleaned E)
    (h : E.Step s t es) : t.Cleaned E := by
  rcases h.outside with ⟨ho, -⟩ | ⟨-, hl⟩
  · exact hs.quiet ho.trace (fun ev hev hacts => ho.source ev hev hacts.1) (by rw [ho.phase])
      (by rw [ho.phase]) fun _ => ho.incarnation
  · exact hs.loopStep hl

end Sys

theorem Environment.Reachable.cleaned {E : Environment A} {a : A.State} {c : A.Ctx} {s : Sys A}
    (h : E.Reachable a c s) : s.Cleaned E :=
  reachable_induction (P := fun s => s.Cleaned E) (Sys.Cleaned.init E a c)
    (fun _ _ _ _ _ hs hst => hs.step hst) h

theorem LastStart.Up.not_stoppedOnce {l : LastStart A} (h : l.Up) : ¬ l.StoppedOnce := by
  rintro ⟨v, w, a, r, hs, -, -⟩
  have := h.2 (.stopped w l.number a) (by simp [hs])
  cases this

/-! ### The hook on every exit -/

/-- **A started actor is stopped exactly once, unless a fatal timeout ends its loop.** -/
theorem stopped_once_iff {E : Environment A} {a : A.State} {c : A.Ctx} {s : Sys A}
    (h : E.Reachable a c s)
    (hx : (∃ b, s.phase.exit? = some (.ok b)) ∨ ∃ e, s.phase.exit? = some (.err e))
    {l : LastStart A} (hl : lastStart s.trace = some l) (hok : l.ok = true) :
    l.StoppedOnce ↔ (E.config.failOnTimeout = true → ∀ i, .overran i ∉ s.trace) := by
  have hc := h.cleaned
  rcases hx with ⟨b, hb⟩ | ⟨e | _, he⟩
  · obtain ⟨l', hl', -, ho⟩ := hc.ok b hb
    obtain rfl := Option.some_inj.mp (hl.symm.trans hl')
    refine ⟨fun _ hE i hi => ?_, fun _ => ho⟩
    have hf := hc.fatal.mp ⟨hE, _, hi, rfl⟩
    simp [hb] at hf
  · obtain ⟨l', hl', hn⟩ := hc.hook e he
    obtain rfl := Option.some_inj.mp (hl.symm.trans hl')
    rw [hok] at hn
    cases hn
  · -- the early return of the fatal timeout
    obtain ⟨l', hl', hu⟩ := hc.timeout he
    obtain rfl := Option.some_inj.mp (hl.symm.trans hl')
    obtain ⟨hE, ev, hev, ho⟩ := hc.fatal.mpr he
    refine ⟨fun hs => absurd hs hu.not_stoppedOnce, fun hno => ?_⟩
    cases ev <;> first | exact absurd hev (hno hE _) | cases ho

namespace Tally

/-- A mailbox without bound, and a timeout that ends the loop. -/
def strict : Environment tally := ⟨none, ⟨some 5, true⟩, .restartOnly, none⟩

/-- A number is sent and taken up by a handler that waits, then the delay is over. -/
def cutOff : List (Label tally) :=
  [.loop (.hook true), .op (.begin (.send (7 : ℕ)) 0), .op (.push 0), .loop .recv,
    .loop (.pollTask false ⟨false, true⟩)]

end Tally

/-- The loop of a started actor ends without its `stopped` hook. -/
theorem not_stopped_once : ¬ ∀ (E : Environment tally) (s : Sys tally) (l : LastStart tally),
    E.stream = none → E.Reachable (0 : ℕ) (0 : ℕ) s →
    ((∃ b, s.phase.exit? = some (.ok b)) ∨ ∃ e, s.phase.exit? = some (.err e)) →
    lastStart s.trace = some l → l.ok = true → l.StoppedOnce := by
  intro h
  have hs := h Tally.strict _ ⟨0, true, [.began 0, .accepted ⟨0, .task (.send (7 : ℕ))⟩,
    .taken ⟨0, .task (.send (7 : ℕ))⟩, .begun 0 0,
    .polled false ⟨false, true⟩ (.handling (7 : ℕ) false), .overran 0]⟩ rfl
    (Tally.reachable Tally.cutOff rfl) (.inr ⟨.timeout, rfl⟩) rfl rfl
  refine LastStart.Up.not_stoppedOnce ⟨rfl, ?_⟩ hs
  decide

/-- An actor that is told to stop is stopped once. -/
theorem stopped_once_of_stop : ∃ s l, Tally.strict.system.run (Tally.spawn Tally.strict)
      [.loop (.hook true), .op (.begin .stop 0), .op (.push 0), .loop .recv,
        .loop (.hook true)] = some s ∧ lastStart s.trace = some l ∧ l.StoppedOnce := by
  obtain ⟨s, hs, l, hl, hok, hx, hn⟩ : ∃ s, Tally.strict.system.run (Tally.spawn Tally.strict)
      [.loop (.hook true), .op (.begin .stop 0), .op (.push 0), .loop .recv,
        .loop (.hook true)] = some s ∧ ∃ l, lastStart s.trace = some l ∧ l.ok = true ∧
      s.phase.exit? = some (.ok (0 : ℕ)) ∧ ∀ ev ∈ s.trace, ev.isOverran = false :=
    ⟨_, rfl, _, rfl, rfl, rfl, by decide⟩
  refine ⟨s, l, hs, hl, (stopped_once_iff (Tally.reachable _ hs) (.inl ⟨_, hx⟩) hl hok).mpr ?_⟩
  intro _ i hi
  cases hn _ hi

end Hannibal
