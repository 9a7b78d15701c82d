/-
Where the event loop ends.

`Event.endsLoop` are the events that end the loop of their own accord, and a
phase is `looping` until one of them happened or the future crashed.  Three
invariants of every run

* `Ends` — the loop is over exactly after an event that ends it, and nothing is
  taken, run or started behind it;
* `Begun` — the tasks that began are the tasks that were taken;
* `StartFailure` — a failed `started` is the first one, before any payload, or
  the one of the `Restart` taken last

give the contract of the mailbox, `mailbox_contract`.
-/
import Hannibal.References

open scoped List

namespace Hannibal

variable {A : Actor}

/-- The receive loop, `started` before it included, is not over. -/
def Phase.looping : Phase A → Bool
  | .starting => true
  | .receiving => true
  | .task _ _ => true
  | .refreshStopping _ => true
  | .refreshStarting _ => true
  | .item _ _ => true
  | _ => false

/-- The loop's future panicked or was dropped. -/
def Phase.crashed : Phase A → Bool
  | .leaving .panicked => true
  | .leaving .dropped => true
  | .releasing .panicked => true
  | .releasing .dropped => true
  | .ended .panicked => true
  | .ended .dropped => true
  | _ => false

namespace Event

/-- What ends the loop: a `Stop`, the end of the mailbox or of the stream, an
error of `started`, or a task that overruns while that is fatal. -/
def endsLoop (E : Environment A) : Event A → Bool
  | .taken ⟨_, .stop⟩ => true
  | .mailboxEnd => true
  | .streamEnd => true
  | .started _ _ ok => !ok
  | .overran _ => E.config.failOnTimeout
  | _ => false

/-- Events of the loop other than those of its way out. -/
def working : Event A → Bool
  | .taken _ => true
  | .mailboxEnd => true
  | .started _ _ _ => true
  | .recreated _ => true
  | .refreshed _ => true
  | .begun _ _ => true
  | .polled _ _ _ => true
  | .completed _ _ => true
  | .overran _ => true
  | .itemTaken _ => true
  | .itemPolled _ _ => true
  | .itemHandled _ => true
  | .streamPending => true
  | .streamEnd => true
  | _ => false

theorem source_of_working {ev : Event A} (h : ev.working = true) : ev.source = .loop := by
  cases ev <;> first | rfl | cases h

theorem working_of_endsLoop {E : Environment A} {ev : Event A} (h : ev.endsLoop E = true) :
    ev.working = true := by
  cases ev <;> first | rfl | cases h

theorem endsLoop_taken {E : Environment A} {e : Envelope A} :
    (Event.taken e).endsLoop E = true ↔ e.payload = .stop := by
  rcases e with ⟨i, f | - | -⟩ <;> simp [endsLoop]

def begun? : Event A → Option ℕ
  | .begun i _ => some i
  | _ => none

end Event

/-- The id of a task. -/
def Envelope.task? (e : Envelope A) : Option ℕ :=
  match e.payload with
  | .task _ => some e.id
  | _ => none

theorem tasks_sublist : ∀ l : List (Envelope A), l.filterMap Envelope.task? <+ l.map Envelope.id
  | [] => .slnil
  | ⟨i, .task _⟩ :: l => (tasks_sublist l).cons_cons i
  | ⟨i, .stop⟩ :: l => (tasks_sublist l).cons i
  | ⟨i, .restart⟩ :: l => (tasks_sublist l).cons i

/-- The tasks in the order in which the loop began them. -/
def begun (t : List (Event A)) : List ℕ := t.filterMap Event.begun?

@[simp] theorem begun_append (t u : List (Event A)) : begun (t ++ u) = begun t ++ begun u :=
  List.filterMap_append

theorem begun_eq_nil {t : List (Event A)} (h : ∀ i n, .begun i n ∉ t) : begun t = [] := by
  refine List.filterMap_eq_nil_iff.mpr fun ev hev => ?_
  cases ev <;> first | rfl | exact absurd hev (h _ _)

namespace Sys

/-! ### What a step of the loop does to its end -/

/-- A step of the loop goes on, ends the loop with its last event, crashes, or
is one of the way out. -/
inductive Progress (E : Environment A) (s t : Sys A) (es : List (Event A)) : Prop where
  | goes (hs : s.phase.looping = true) (ht : t.phase.looping = true)
      (he : ∀ ev ∈ es, ev.endsLoop E = false)
  | ends (hs : s.phase.looping = true) (ht : t.phase.looping = false)
      (he : ∀ ev ∈ es.dropLast, ev.endsLoop E = false)
      (hl : ∃ ev ∈ es, ev.endsLoop E = true)
  | crashes (ht : t.phase.looping = false) (hc : t.phase.crashed = true)
      (he : ∀ ev ∈ es, ev.endsLoop E = false)
      (hs : s.phase.looping = false → es = [])
  | leaves (hs : s.phase.looping = false) (ht : t.phase.looping = false)
      (hc : t.phase.crashed = s.phase.crashed) (he : ∀ ev ∈ es, ev.working = false)

theorem afterLoop_looping (E : Environment A) : E.afterLoop.looping = false := by
  unfold Environment.afterLoop
  split <;> rfl

theorem LoopStep.progress {E : Environment A} {s t : Sys A} {es : List (Event A)}
    (h : s.LoopStep E t es) : s.Progress E t es := by
  have htask : ∀ (e : Envelope A) (f : TaskFn A), e.payload = .task f →
      (Event.taken e).endsLoop E = false := by
    rintro ⟨i, -⟩ f rfl
    rfl
  have hrestart : ∀ e : Envelope A, e.payload = .restart →
      (Event.taken e).endsLoop E = false := by
    rintro ⟨i, -⟩ rfl
    rfl
  cases h with
  | startOk w es a c u hp =>
    cases hp with
    | first hp | refresh i hp =>
      exact .goes (by simp [hp, Phase.looping]) rfl (by simp [Event.endsLoop])
  | startErr w es e a c hp =>
    cases hp with
    | first hp | refresh i hp =>
      exact .ends (by simp [hp, Phase.looping]) rfl (by simp) (by simp [Event.endsLoop])
  | refreshStop w i hp | recreate w i hp | takeItem items x hp | itemPending x w fut fut' a c hp
  | itemDone x w fut r a c hp | taskPending i w sel fut fut' a c hp
  | taskDone i w sel fut reply a c hp =>
    exact .goes (by simp [hp, Phase.looping]) rfl (by simp [Event.endsLoop])
  | finishing w hp | stopping w hp =>
    exact .leaves (by simp [hp, Phase.looping]) rfl (by simp [hp, Phase.crashed])
      (by simp [Event.working])
  | takeTask es e q f hr hq hf =>
    obtain ⟨hp, rfl | rfl⟩ := hr.events <;>
      exact .goes (by simp [hp, Phase.looping]) rfl (by simp [htask e f hf]; simp [Event.endsLoop])
  | takeStop es e q hr hq hf =>
    obtain ⟨hp, rfl | rfl⟩ := hr.events <;>
      exact .ends (by simp [hp, Phase.looping]) (afterLoop_looping E) (by simp [Event.endsLoop])
        ⟨.taken e, by simp, Event.endsLoop_taken.mpr hf⟩
  | takeRestart e q hp hs hq hf hR =>
    exact .goes (by simp [hp, Phase.looping]) rfl (by simp [hrestart e hf])
  | ignoreRestart e q hp hs hq hf hR =>
    exact .goes (by simp [hp, Phase.looping]) rfl (by simp [hrestart e hf]; simp [Event.endsLoop])
  | restartPanic es e q hr hs hq hf =>
    obtain ⟨hp, rfl | rfl⟩ := hr.events <;>
      exact .crashes rfl rfl (by simp [hrestart e hf]; try simp [Event.endsLoop])
        (by simp [hp, Phase.looping])
  | mailboxEnd es hr hq hc =>
    obtain ⟨hp, rfl | rfl⟩ := hr.events <;>
      exact .ends (by simp [hp, Phase.looping]) (afterLoop_looping E) (by simp [Event.endsLoop])
        ⟨.mailboxEnd, by simp, rfl⟩
  | streamEnd items hp =>
    exact .ends (by simp [hp, Phase.looping]) rfl (by simp) (by simp [Event.endsLoop])
  | streamPending hp =>
    have hl : s.phase.looping = true := by simp [hp, Phase.looping]
    exact .goes hl hl (by simp [Event.endsLoop])
  | taskOverran i w sel fut a c hp =>
    -- a timeout ends the loop only where the configuration says so
    have hl : s.phase.looping = true := by simp [hp, Phase.looping]
    cases hf : E.config.failOnTimeout with
    | true =>
      exact .ends hl (by simp [Sys.overrun, hf, Phase.looping]) (by simp [Event.endsLoop])
        (by simp [Event.endsLoop, hf])
    | false =>
      exact .goes hl (by simp [Sys.overrun, hf, Phase.looping]) (by simp [Event.endsLoop, hf])
  | crash o ho hs =>
    refine .crashes ?_ ?_ (by simp) fun _ => rfl
    · unfold Sys.crash
      split <;> rfl
    · unfold Sys.crash
      rcases ho with ⟨rfl, -⟩ | rfl <;> split <;> rfl
  | notify o hp | release o hp =>
    refine .leaves (by simp [hp, Phase.looping]) rfl ?_ (by simp [Event.working])
    cases o <;> simp [hp, Phase.crashed, Sys.notify, Sys.release]
  | dropContext hd =>
    have hl : s.phase.looping = false := by
      obtain ⟨o, hp | hp⟩ := phase_of_dropsContext hd <;> rw [hp] <;> rfl
    exact .leaves hl hl rfl (by simp)

/-- Once the loop is over, it does no more work. -/
theorem LoopStep.idle {E : Environment A} {s t : Sys A} {es : List (Event A)}
    (h : s.LoopStep E t es) (hs : s.phase.looping = false) : ∀ ev ∈ es, ev.working = false := by
  cases h.progress with
  | goes hls | ends hls => simp [hs] at hls
  | crashes hlt hc he hnil => simp [hnil hs]
  | leaves hls hlt hc he => exact he

theorem step_idle {E : Environment A} {s t : Sys A} {es : List (Event A)} (h : E.Step s t es)
    (hp : s.phase.looping = false) :
    t.phase.looping = false ∧ ∀ ev ∈ es, ev.working = false := by
  rcases h.outside with ⟨ho, -⟩ | ⟨-, hl⟩
  · refine ⟨ho.phase ▸ hp, fun ev hev => ?_⟩
    rw [← Bool.not_eq_true]
    exact fun hw => ho.source ev hev (Event.source_of_working hw)
  · refine ⟨?_, hl.idle hp⟩
    cases hl.progress with
    | goes hls | ends hls => simp [hp] at hls
    | crashes hlt => exact hlt
    | leaves hls hlt => exact hlt

/-! ### The invariants -/

/-- The loop is over exactly after an event that ends it, unless it crashed, and
such an event is followed by no more work. -/
structure Ends (E : Environment A) (s : Sys A) : Prop where
  active : s.phase.looping = true → ∀ ev ∈ s.trace, ev.endsLoop E = false
  ended : s.phase.looping = false → s.phase.crashed = false → ∃ ev ∈ s.trace, ev.endsLoop E = true
  last : ∀ ev ev' : Event A, ev.endsLoop E = true → ev'.working = true → Precedes s.trace ev' ev

theorem endsLoop_of_idle {E : Environment A} {es : List (Event A)}
    (h : ∀ ev ∈ es, ev.working = false) : ∀ ev ∈ es, ev.endsLoop E = false := by
  intro ev hev
  rw [← Bool.not_eq_true]
  exact fun he => absurd (Event.working_of_endsLoop he) (by simp [h ev hev])

/-- New entries of which only the last ends the loop. -/
theorem precedes_of_dropLast {E : Environment A} {es : List (Event A)} {ev ev' : Event A}
    (h : ∀ ev ∈ es.dropLast, ev.endsLoop E = false) (hev : ev.endsLoop E = true) :
    Precedes es ev' ev := by
  intro hsub
  rw [h ev (mem_dropLast_of_pair hsub)] at hev
  cases hev

theorem Ends.step {E : Environment A} {s t : Sys A} {es : List (Event A)} (hs : s.Ends E)
    (h : E.Step s t es) : t.Ends E := by
  rcases h.outside with ⟨ho, -⟩ | ⟨-, hl⟩
  · have hidle : ∀ ev ∈ es, ev.working = false := by
      intro ev hev
      rw [← Bool.not_eq_true]
      exact fun hw => ho.source ev hev (Event.source_of_working hw)
    have hno := endsLoop_of_idle (E := E) hidle
    refine ⟨?_, ?_, ?_⟩ <;> rw [ho.trace]
    · rw [ho.phase]
      exact fun hp ev hev => (List.mem_append.mp hev).elim (hs.active hp ev) (hno ev)
    · rw [ho.phase]
      intro hp hc
      obtain ⟨ev, hev, he⟩ := hs.ended hp hc
      exact ⟨ev, List.mem_append_left _ hev, he⟩
    · intro ev ev' he hw
      have hn : ev' ∉ es := fun hmem => by simp [hidle ev' hmem] at hw
      exact Precedes.append.mpr
        ⟨hs.last ev ev' he hw, fun h => hn (h.subset (by simp)), fun _ => hn⟩
  · have ht := hl.trace
    cases hl.progress with
    | goes hls hlt he =>
      refine ⟨fun _ => ?_, fun hn => absurd hlt (by simp [hn]), ?_⟩ <;> rw [ht]
      · exact fun ev hev => (List.mem_append.mp hev).elim (hs.active hls ev) (he ev)
      · intro ev ev' hev hw
        refine Precedes.append.mpr ⟨hs.last ev ev' hev hw, fun h => ?_, fun hmem => ?_⟩
        · simp [he ev (h.subset (by simp))] at hev
        · simp [hs.active hls ev hmem] at hev
    | ends hls hlt he hend =>
      refine ⟨fun hn => absurd hn (by simp [hlt]), fun _ _ => ?_, ?_⟩ <;> rw [ht]
      · obtain ⟨ev, hev, hx⟩ := hend
        exact ⟨ev, List.mem_append_right _ hev, hx⟩
      · intro ev ev' hev hw
        refine Precedes.append.mpr
          ⟨hs.last ev ev' hev hw, precedes_of_dropLast he hev, fun hmem => ?_⟩
        simp [hs.active hls ev hmem] at hev
    | crashes hlt hc he hnil =>
      refine ⟨fun hn => absurd hn (by simp [hlt]), fun _ hn => absurd hn (by simp [hc]), ?_⟩
      rw [ht]
      intro ev ev' hev hw
      refine Precedes.append.mpr ⟨hs.last ev ev' hev hw, fun h => ?_, fun hmem => ?_⟩
      · simp [he ev (h.subset (by simp))] at hev
      · cases hls : s.phase.looping with
        | true => simp [hs.active hls ev hmem] at hev
        | false => simp [hnil hls]
    | leaves hls hlt hc he =>
      refine ⟨fun hn => absurd hn (by simp [hlt]), fun _ hn => ?_, ?_⟩ <;> rw [ht]
      · obtain ⟨ev, hev, hx⟩ := hs.ended hls (hc ▸ hn)
        exact ⟨ev, List.mem_append_left _ hev, hx⟩
      · intro ev ev' hev hw
        have hn : ev' ∉ es := fun hmem => by simp [he ev' hmem] at hw
        exact Precedes.append.mpr
          ⟨hs.last ev ev' hev hw, fun h => hn (h.subset (by simp)), fun _ => hn⟩

/-- An event that ended the loop is in the past. -/
theorem Ends.over_of_mem {E : Environment A} {s : Sys A} (hs : s.Ends E) {ev : Event A}
    (hmem : ev ∈ s.trace) (hev : ev.endsLoop E = true) : s.phase.looping = false := by
  cases hl : s.phase.looping with
  | false => rfl
  | true => simp [hs.active hl ev hmem] at hev

/-- The tasks that began are the tasks that were taken. -/
def Begun (s : Sys A) : Prop := begun s.trace = (taken s.trace).filterMap Envelope.task?

theorem LoopStep.begun {E : Environment A} {s t : Sys A} {es : List (Event A)}
    (h : s.LoopStep E t es) : begun es = (taken es).filterMap Envelope.task? := by
  cases h with
  | startOk w es a c u hp => cases hp <;> rfl
  | takeTask es e q f hr hq hf | takeStop es e q hr hq hf | restartPanic es e q hr hs hq hf =>
    obtain ⟨-, rfl | rfl⟩ := hr.events <;>
      simp [Hannibal.begun, taken, List.filterMap_cons, Event.begun?, Event.taken?,
        Envelope.task?, hf]
  | takeRestart e q hp hs hq hf | ignoreRestart e q hp hs hq hf =>
    simp [Hannibal.begun, taken, List.filterMap_cons, Event.begun?, Event.taken?,
      Envelope.task?, hf]
  | mailboxEnd es hr => obtain ⟨-, rfl | rfl⟩ := hr.events <;> rfl
  | _ => rfl

theorem Begun.step {E : Environment A} {s t : Sys A} {es : List (Event A)} (hs : s.Begun)
    (h : E.Step s t es) : t.Begun := by
  unfold Begun at hs ⊢
  rcases h.outside with ⟨ho, -⟩ | ⟨-, hl⟩
  · have htk : taken es = [] := taken_eq_nil fun e hmem => ho.source _ hmem rfl
    have hbg : Hannibal.begun es = [] := begun_eq_nil fun i n hmem => ho.source _ hmem rfl
    rw [ho.trace, begun_append, taken_append, hbg, htk, List.append_nil, List.append_nil, hs]
  · rw [hl.trace, begun_append, taken_append, List.filterMap_append, hs, hl.begun]

/-! ### Failing starts -/

/-- The payload taken last is a `Restart` that is not ignored. -/
def RestartLast (E : Environment A) (s : Sys A) : Prop :=
  E.strategy ≠ .nonRestartable ∧ ∃ e, (taken s.trace).getLast? = some e ∧ e.payload = .restart

/-- `started` runs before any payload and in the refresh of a `Restart`. -/
structure StartFailure (E : Environment A) (s : Sys A) : Prop where
  starting : s.phase = .starting → taken s.trace = [] ∧ ∀ w n b, .started w n b ∉ s.trace
  refreshing : ∀ i, s.phase = .refreshStopping i ∨ s.phase = .refreshStarting i → s.RestartLast E
  failed : ∀ w n, .started w n false ∈ s.trace →
    (taken s.trace = [] ∧ ∀ w' n', .started w' n' true ∉ s.trace) ∨ s.RestartLast E

theorem LoopStep.phase_ne_starting {E : Environment A} {s t : Sys A} {es : List (Event A)}
    (h : s.LoopStep E t es) : t.phase ≠ .starting := by
  cases h with
  | takeStop | mailboxEnd =>
    simp only [record_phase, Environment.afterLoop]
    split <;> simp
  | taskOverran =>
    simp only [Sys.overrun, record_phase]
    split <;> simp
  | crash =>
    unfold Sys.crash
    split <;> simp
  | streamPending hp => simp [hp]
  | dropContext hd => obtain ⟨o, hp | hp⟩ := phase_of_dropsContext hd <;> simp [hp]
  | _ => exact fun hp => by cases hp

/-- A refresh goes on, or a `Restart` was just taken. -/
theorem LoopStep.refreshing {E : Environment A} {s t : Sys A} {es : List (Event A)}
    (h : s.LoopStep E t es) {i : ℕ}
    (hp : t.phase = .refreshStopping i ∨ t.phase = .refreshStarting i) :
    (s.phase = .refreshStopping i ∧ taken es = []) ∨
      E.strategy ≠ .nonRestartable ∧ ∃ e : Envelope A, e.payload = .restart ∧ taken es = [e] := by
  cases h with
  | takeRestart e q hs hn hq hf hR => exact .inr ⟨hR, e, hf, rfl⟩
  | refreshStop w j hs | recreate w j hs =>
    refine .inl ⟨?_, rfl⟩
    rcases hp with hp | hp
    · cases hp
    · cases hp
      exact hs
  | takeStop | mailboxEnd =>
    simp only [record_phase, Environment.afterLoop] at hp
    split at hp <;> simp at hp
  | taskOverran =>
    simp only [Sys.overrun, record_phase] at hp
    split at hp <;> simp at hp
  | crash =>
    unfold Sys.crash at hp
    split at hp <;> simp at hp
  | streamPending hs => simp [hs] at hp
  | dropContext hd => obtain ⟨o, hs | hs⟩ := phase_of_dropsContext hd <;> simp [hs] at hp
  | _ => simp [Sys.complete, Sys.notify, Sys.release] at hp

/-- A step that records an error of `started` records nothing else. -/
theorem LoopStep.started_err {E : Environment A} {s t : Sys A} {es : List (Event A)}
    (h : s.LoopStep E t es) {w : A.World} {n : ℕ} (he : .started w n false ∈ es) :
    taken es = [] ∧ (∀ w n, .started w n true ∉ es) ∧
      (s.phase = .starting ∨ ∃ i, s.phase = .refreshStarting i) := by
  cases h with
  | startErr w' es' e a c hp =>
    refine ⟨rfl, by simp, ?_⟩
    cases hp with
    | first hp => exact .inl hp
    | refresh i hp => exact .inr ⟨i, hp⟩
  | startOk w' es' a c u hp => cases hp <;> simp at he
  | takeTask es' e q f hr | takeStop es' e q hr | restartPanic es' e q hr | mailboxEnd es' hr =>
    obtain ⟨-, rfl | rfl⟩ := hr.events <;> simp at he
  | _ => simp at he

theorem StartFailure.step {E : Environment A} {s t : Sys A} {es : List (Event A)}
    (hs : s.StartFailure E) (he : s.Ends E) (h : E.Step s t es) : t.StartFailure E := by
  rcases h.outside with ⟨ho, -⟩ | ⟨-, hl⟩
  · have htk : taken t.trace = taken s.trace := by
      rw [ho.trace, taken_append, taken_eq_nil (t := es) fun e hmem => ho.source _ hmem rfl,
        List.append_nil]
    have hst : ∀ w n b, .started w n b ∈ t.trace ↔ .started w n b ∈ s.trace := by
      intro w n b
      rw [ho.trace, List.mem_append, or_iff_left fun hmem => ho.source _ hmem rfl]
    constructor
    · simpa only [ho.phase, htk, hst] using hs.starting
    · simpa only [ho.phase, RestartLast, htk] using hs.refreshing
    · simpa only [RestartLast, htk, hst] using hs.failed
  · have ht := hl.trace
    have hquiet : taken es = [] → taken t.trace = taken s.trace := fun h => by
      rw [ht, taken_append, h, List.append_nil]
    constructor
    · exact fun hp => absurd hp hl.phase_ne_starting
    · intro i hp
      rcases hl.refreshing hp with ⟨hps, htk⟩ | ⟨hR, e, hf, htk⟩
      · simpa only [RestartLast, hquiet htk] using hs.refreshing i (.inl hps)
      · exact ⟨hR, e, by rw [ht, taken_append, htk, List.getLast?_concat], hf⟩
    · intro w n hmem
      have hst : (∀ w n, .started w n true ∉ es) →
          ∀ w n, .started w n true ∈ t.trace ↔ .started w n true ∈ s.trace := by
        intro hno w n
        rw [ht, List.mem_append, or_iff_left (hno w n)]
      rw [ht, List.mem_append] at hmem
      rcases hmem with hmem | hmem
      · -- the loop is over already, so neither `taken` nor `started` is recorded again
        have hidle := hl.idle (he.over_of_mem hmem rfl)
        have htk := hquiet (taken_eq_nil fun e hmem => by simpa [Event.working] using hidle _ hmem)
        simpa only [RestartLast, htk, hst fun w n hmem => by
          simpa [Event.working] using hidle _ hmem] using hs.failed w n hmem
      · obtain ⟨hnil, hno, hp⟩ := hl.started_err hmem
        have htk := hquiet hnil
        rcases hp with hp | ⟨i, hp⟩
        · obtain ⟨hs0, hs1⟩ := hs.starting hp
          exact .inl ⟨htk.trans hs0, fun w n hmem => hs1 w n true ((hst hno w n).mp hmem)⟩
        · simpa only [RestartLast, htk] using .inr (hs.refreshing i (.inr hp))

/-! ### The end of the mailbox -/

/-- An operation that has not pushed its payload yet keeps the channel open. -/
theorem Counted.senders_pos_of_begun {s : Sys A} (hs : s.Counted) {o : Op A} (ho : o ∈ s.ops)
    (hst : o.state = .begun) : 0 < s.chan.senders := by
  have hl : o.state.live = true := by simp [hst, OpState.live]
  rw [hs.senders]
  have hk := hs.kept o ho hl
  have htx : s.StrongHandle → 0 < s.arcs.closures := fun h => by
    have := hs.tx_pos.mpr h
    rw [Nat.pos_iff_ne_zero, Ne, Arcs.closures_eq_zero]
    omega
  cases ha : o.access with
  | borrowed i =>
    rw [ha] at hk
    exact Nat.add_pos_left (htx (strongHandle_of_borrowed hk)) _
  | owned k => exact Nat.add_pos_left (htx (.inr ⟨o, ho, hl, k, ha⟩)) _
  | detached =>
    simp only [ha] at hk
    refine Nat.add_pos_right _ (Table.sum_map_pos.mpr ⟨o, ho, ?_⟩)
    simp [Op.clones, hk.1, hk.2.2]
  | context =>
    refine Nat.add_pos_left ?_ _
    have hf : 0 < s.arcs.force := hs.force_pos.mpr (.inr (List.any_eq_true.mpr
      ⟨o, ho, by simp [ha, hl]⟩))
    rw [Nat.pos_iff_ne_zero, Ne, Arcs.closures_eq_zero]
    omega

/-- Once the last sender is gone no other one appears. -/
theorem Counted.senders_stable {E : Environment A} {s t : Sys A} {es : List (Event A)}
    (hs : s.Counted) (h : E.Step s t es) (h0 : s.chan.senders = 0) : t.chan.senders = 0 := by
  have hcl : s.arcs.tx = 0 ∧ s.arcs.force = 0 := by
    have := hs.senders
    rw [← Arcs.closures_eq_zero]
    omega
  have hbegin : ∀ (m : Method A) (x : Access), 0 < s.arcs.tx ∨ 0 < s.arcs.force →
      (s.beginOp m x).chan.senders = 0 := fun m x h => by omega
  cases h with
  | handle l h =>
    obtain ⟨i, hd, k, -, -, rfl⟩ | ⟨w, k, b, -, rfl⟩ | ⟨k, b, -, -, rfl⟩ | ⟨i, hd, -, -, rfl⟩ :=
      handleStep_cases h
    · exact h0
    · exact h0
    · exact h0
    · simp [Sys.dropHandle, releaseArcs, h0]
  | op es h =>
    cases h with
    | begin m i hd hh ho hst =>
      refine hbegin m _ (.inl ?_)
      have := (hs.handle_le hh).1
      rw [HandleKind.strong_iff_captures_tx.mp hst] at this
      omega
    | upgraded m w k hu =>
      obtain ⟨hst, ht, -⟩ := Arcs.upgrade_some hu
      exact hbegin m _ (.inl (ht (by rw [HandleKind.strong_iff_captures_tx.mp hst]; omega)))
    | context m hp hm hb hf => exact hbegin m _ (.inr hf)
    | refused m => simp [refuseOp, Sys.addOp, Op.clones, OpState.sending, h0]
    | push i o d ho hst hc =>
      have := hs.senders_pos_of_begun (List.mem_of_getElem? ho) hst
      omega
    | move i o st ho hm => simp [Sys.setOp, releaseArcs, h0]
  | loop es hb h => rw [h.untouched.senders, h0]
  | watch es h => cases h <;> exact h0

/-- The loop saw the end of the mailbox: nothing more comes. -/
def Drained (s : Sys A) : Prop :=
  .mailboxEnd ∈ s.trace → s.chan.senders = 0 ∧ accepted s.trace = taken s.trace

/-- The step that records the end of the mailbox. -/
theorem LoopStep.mailboxEnd_mem {E : Environment A} {s t : Sys A} {es : List (Event A)}
    (h : s.LoopStep E t es) (he : .mailboxEnd ∈ es) :
    s.phase = .receiving ∧ s.chan.queue = [] ∧ s.chan.senders = 0 ∧ taken es = [] := by
  cases h with
  | mailboxEnd es' hr hq hc => obtain ⟨hp, rfl | rfl⟩ := hr.events <;> exact ⟨hp, hq, hc, rfl⟩
  | startOk w' es' a c u hp => cases hp <;> simp at he
  | takeTask es' e q f hr | takeStop es' e q hr | restartPanic es' e q hr =>
    obtain ⟨-, rfl | rfl⟩ := hr.events <;> simp at he
  | _ => simp at he

theorem Drained.step {E : Environment A} {s t : Sys A} {es : List (Event A)} (hs : s.Drained)
    (hc : s.Counted) (he : s.Ends E)
    (hq : s.phase.isEnded = false → accepted s.trace = taken s.trace ++ s.chan.queue)
    (h : E.Step s t es) : t.Drained := by
  intro hmem
  rcases h.outside with ⟨ho, hef⟩ | ⟨-, hl⟩
  · have htk : taken es = [] := taken_eq_nil fun e hmem => ho.source _ hmem rfl
    rw [ho.trace, List.mem_append, or_iff_left fun hmem => ho.source _ hmem rfl] at hmem
    obtain ⟨h0, hat⟩ := hs hmem
    refine ⟨hc.senders_stable h h0, ?_⟩
    have hac : accepted es = [] := by
      cases hef with
      | idle es he => exact accepted_eq_nil fun e hmem => by simpa [Event.source] using he _ hmem
      | add | move => exact accepted_returnEvents _ _
      | accept i o hi hst =>
        have := hc.senders_pos_of_begun (List.mem_of_getElem? hi) hst
        omega
    rw [ho.trace, accepted_append, taken_append, hac, htk, hat]
  · have hac : accepted es = [] := accepted_eq_nil fun e hmem => by
      simpa [Event.source] using hl.source _ hmem
    rw [hl.trace, List.mem_append] at hmem
    rw [hl.untouched.senders, hl.trace, accepted_append, taken_append, hac, List.append_nil]
    rcases hmem with hmem | hmem
    · obtain ⟨h0, hat⟩ := hs hmem
      refine ⟨h0, ?_⟩
      have hidle := hl.idle (he.over_of_mem hmem rfl)
      have htk : taken es = [] :=
        taken_eq_nil fun e hmem => by simpa [Event.working] using hidle _ hmem
      rw [htk, List.append_nil, hat]
    · obtain ⟨hp, hqe, h0, htk⟩ := hl.mailboxEnd_mem hmem
      refine ⟨h0, ?_⟩
      rw [htk, hq (by rw [hp]; rfl), hqe]

theorem streamEnd_step {E : Environment A} {s t : Sys A} {es : List (Event A)}
    (h : E.Step s t es) (hs : E.stream = none) : .streamEnd ∉ es := by
  intro hmem
  rcases h.outside with ⟨ho, -⟩ | ⟨-, hl⟩
  · exact ho.source _ hmem rfl
  · cases hl with
    | streamEnd items hp hst => simp [hs] at hst
    | startOk w' es' a c u hp => cases hp <;> simp at hmem
    | takeTask es' e q f hr | takeStop es' e q hr | restartPanic es' e q hr | mailboxEnd es' hr =>
      obtain ⟨-, rfl | rfl⟩ := hr.events <;> simp at hmem
    | _ => simp at hmem

end Sys

namespace Environment.Reachable

variable {E : Environment A} {a : A.State} {c : A.Ctx} {s : Sys A}

theorem ends (h : E.Reachable a c s) : s.Ends E := by
  refine reachable_induction ⟨?_, ?_, fun _ _ _ _ => Precedes.nil⟩
    (fun _ _ _ _ _ hs hst => hs.step hst) h
  · intro _ ev hev
    cases hev
  · intro hp
    cases hp

theorem begun (h : E.Reachable a c s) : s.Begun :=
  reachable_induction (P := Sys.Begun) rfl (fun _ _ _ _ _ hs hst => hs.step hst) h

theorem startFailure (h : E.Reachable a c s) : s.StartFailure E := by
  refine reachable_induction ⟨?_, ?_, ?_⟩ (fun _ _ _ hr _ hs hst => hs.step hr.ends hst) h
  · exact fun _ => ⟨rfl, fun w n b hmem => by cases hmem⟩
  · rintro i (hp | hp) <;> cases hp
  · intro w n hmem
    cases hmem

theorem drained (h : E.Reachable a c s) : s.Drained := by
  refine reachable_induction (P := Sys.Drained) ?_
    (fun _ _ _ hr _ hs hst => hs.step hr.counted hr.ends hr.queued hst) h
  intro hmem
  cases hmem

theorem no_streamEnd (h : E.Reachable a c s) (hs : E.stream = none) : .streamEnd ∉ s.trace := by
  refine reachable_induction (P := fun s => .streamEnd ∉ s.trace) (fun hmem => by cases hmem)
    (fun s t es _ _ hno hst => ?_) h
  have ht : t.trace = s.trace ++ es := by
    rcases hst.outside with ⟨ho, -⟩ | ⟨-, hl⟩
    · exact ho.trace
    · exact hl.trace
  rw [ht, List.mem_append]
  exact fun hmem => hmem.elim hno (Sys.streamEnd_step hst hs)

end Environment.Reachable

/-! ### The contract -/

/-- What `create_loop` promises about its mailbox. -/
structure MailboxContract (E : Environment A) (s : Sys A) : Prop where
  /-- One order of acceptance, of which the loop takes a beginning. -/
  in_order : taken s.trace <+: accepted s.trace
  /-- Every payload was accepted once. -/
  once : ((accepted s.trace).map Envelope.id).Nodup
  /-- An operation that returned before another one began comes first. -/
  real_time : ∀ e ∈ accepted s.trace, ∀ e' ∈ accepted s.trace, ∀ r,
    [.returned e.id r, .began e'.id] <+ s.trace → [e, e'] <+ accepted s.trace
  /-- Every task that was taken began exactly once, and nothing else began. -/
  begun_once : ∀ e ∈ taken s.trace, ∀ f, e.payload = .task f → (begun s.trace).count e.id = 1
  begun_taken : ∀ i ∈ begun s.trace, ∃ e ∈ taken s.trace, e.id = i ∧ ∃ f, e.payload = .task f
  /-- Unless its future panicked or was dropped, the loop is over exactly when
  something ended it, ... -/
  ends_iff : s.phase.crashed = false →
    (s.phase.looping = false ↔ ∃ ev ∈ s.trace, ev.endsLoop E = true)
  /-- ... and behind the first such event nothing is taken, run or ended again. -/
  ends_first : ∀ ev ev' : Event A, ev.endsLoop E = true → ev'.working = true →
    ¬ [ev, ev'] <+ s.trace
  /-- The stream loop's own end does not occur. -/
  no_stream : .streamEnd ∉ s.trace
  /-- A failed `started` is the first one, with no payload taken at all, or that
  of the `Restart` taken last. -/
  start_failure : ∀ w n, .started w n false ∈ s.trace →
    (taken s.trace = [] ∧ ∀ w' n', .started w' n' true ∉ s.trace) ∨ s.RestartLast E
  /-- At the end of the mailbox every accepted payload was taken. -/
  mailbox_end : .mailboxEnd ∈ s.trace → taken s.trace = accepted s.trace

/-- **Mailbox contract** of `create_loop`, for all strategies, configurations,
actors and interleavings. -/
theorem mailbox_contract {E : Environment A} {a : A.State} {c : A.Ctx} {s : Sys A}
    (hn : E.stream = none) (h : E.Reachable a c s) : MailboxContract E s where
  in_order := h.logged.ordered
  once := h.enqueued.nodup
  real_time := fun e he e' he' r hsub => h.enqueued.real_time he he' hsub
  begun_once := by
    intro e he f hf
    have hids : ((taken s.trace).map Envelope.id).Nodup :=
      h.enqueued.nodup.sublist (h.logged.ordered.sublist.map _)
    rw [h.begun]
    refine List.count_eq_one_of_mem (hids.sublist (tasks_sublist _)) (List.mem_filterMap.mpr ?_)
    exact ⟨e, he, by simp [Envelope.task?, hf]⟩
  begun_taken := by
    intro i hi
    rw [h.begun, List.mem_filterMap] at hi
    obtain ⟨e, he, hi⟩ := hi
    unfold Envelope.task? at hi
    split at hi
    · next f hf => exact ⟨e, he, Option.some_inj.mp hi, f, hf⟩
    · cases hi
  ends_iff := fun hc =>
    ⟨fun hl => h.ends.ended hl hc, fun ⟨_, hmem, hev⟩ => h.ends.over_of_mem hmem hev⟩
  ends_first := fun ev ev' hev hw => h.ends.last ev ev' hev hw
  no_stream := h.no_streamEnd hn
  start_failure := h.startFailure.failed
  mailbox_end := fun hmem => (h.drained hmem).2.symm

/-- A `ping` is taken, then the `stop` behind it ends the loop. -/
theorem mailbox_contract_of_ping_stop :
    ∃ s, Tally.plain.system.run (Tally.spawn Tally.plain)
        [.op (.begin .ping 0), .op (.push 0), .op (.begin .stop 0), .op (.push 1),
          .loop (.hook true), .loop .recv, .loop (.pollTask true ⟨false, false⟩),
          .loop .recv] = some s ∧
      (taken s.trace).map Envelope.id = [0, 1] ∧ MailboxContract Tally.plain s :=
  ⟨_, rfl, rfl, mailbox_contract rfl (Tally.reachable
    [.op (.begin .ping 0), .op (.push 0), .op (.begin .stop 0), .op (.push 1),
      .loop (.hook true), .loop .recv, .loop (.pollTask true ⟨false, false⟩), .loop .recv] rfl)⟩

end Hannibal
