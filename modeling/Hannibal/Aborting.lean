/-
No timer outlives its actor.

`spawn_task` puts the abort handle of every timer it spawns into the context, and the
context is dropped on every way out of the loop's future, before the receiver of the
mailbox.  The timers that were spawned are read off the calls that hooks and handlers made,
so that they can be compared with the handles in the context:

* `Sys.Hushed` — from a `stopped` hook to the next start no handler runs;
* `Timed.Reachable.context_tasks` — the context has the handle of every timer that was
  spawned, and of no other;
* `Timed.Spent` — a timer that is not polled while the context is dropped is never polled
  again, and puts nothing into the mailbox;
* **`no_timer_outlives`** — with the context all timers are aborted; what a poll that is
  under way then still puts into the mailbox is not handled;
* `not_silent_behind_drop` — such a poll does put a message there.
-/
import Hannibal.LoopEnd
import Hannibal.Timers

namespace Hannibal

section Actor

variable {A : Actor}

/-- Recorded while a handler runs. -/
def Event.handles : Event A → Bool
  | .begun _ _ => true
  | .polled _ _ _ => true
  | .completed _ _ => true
  | .overran _ => true
  | .itemTaken _ => true
  | .itemPolled _ _ => true
  | .itemHandled _ => true
  | _ => false

theorem Event.source_of_handles {ev : Event A} (h : ev.handles = true) : ev.source = .loop := by
  cases ev <;> first | rfl | cases h

theorem Event.working_of_handles {ev : Event A} (h : ev.handles = true) : ev.working = true := by
  cases ev <;> first | rfl | cases h

/-- Where a `stopped` hook leaves the loop: a refresh starts the actor again, everything
else is on the way out. -/
def Phase.hushed : Phase A → Bool
  | .refreshStarting _ => true
  | .leaving _ => true
  | .releasing _ => true
  | .ended _ => true
  | _ => false

namespace Sys

theorem LoopStep.hushed {E : Environment A} {s t : Sys A} {es : List (Event A)}
    (h : s.LoopStep E t es) (hp : s.phase.hushed = true) :
    (∀ ev ∈ es, ev.handles = false) ∧
      (t.phase.hushed = true ∨ ∃ w n, .started w n true ∈ es) := by
  cases h with
  | startOk w es a c u hs =>
    cases hs with
    | first hs =>
      rw [hs] at hp
      cases hp
    | refresh i hs => exact ⟨by simp [Event.handles], .inr ⟨_, _, List.mem_cons_self⟩⟩
  | startErr w es e a c hs => exact ⟨by simp [Event.handles], .inl rfl⟩
  | notify o ho | release o ho => exact ⟨by simp [Event.handles], .inl rfl⟩
  | dropContext hd => exact ⟨by simp [Event.handles], .inl hp⟩
  | crash o ho hs =>
    refine ⟨fun ev hev => (by cases hev), .inl ?_⟩
    unfold Sys.crash
    split <;> rfl
  | takeTask es e q f hr | takeStop es e q hr | restartPanic es e q hr | mailboxEnd es hr =>
    rw [hr.events.1] at hp
    cases hp
  | _ => simp [*, Phase.hushed] at hp

theorem LoopStep.stops {E : Environment A} {s t : Sys A} {es : List (Event A)}
    (h : s.LoopStep E t es) {w : A.World} {n : ℕ} {b : A.State} (he : .stopped w n b ∈ es) :
    t.phase.hushed = true ∧ ∀ ev ∈ es, ev.handles = false := by
  cases h with
  | refreshStop | recreate | stopping => exact ⟨rfl, by simp [Event.handles]⟩
  | startOk w es a c u hs => cases hs <;> simp at he
  | takeTask es e q f hr | takeStop es e q hr | restartPanic es e q hr | mailboxEnd es hr =>
    obtain ⟨-, rfl | rfl⟩ := hr.events <;> simp at he
  | _ => simp at he

/-- Between a `stopped` hook and the next `started` hook that succeeds no handler runs. -/
def Hushed (s : Sys A) : Prop := ∀ t u w n b, s.trace = t ++ .stopped w n b :: u →
  (∀ w' n', .started w' n' true ∉ u) → s.phase.hushed = true ∧ ∀ ev ∈ u, ev.handles = false

theorem Hushed.step {E : Environment A} {s t : Sys A} {es : List (Event A)} (hs : s.Hushed)
    (h : E.Step s t es) : t.Hushed := by
  intro r u w n b hsplit hno
  have hout : s.Outside t es → ∀ ev ∈ es, ev.handles = false := by
    intro ho ev hev
    rw [← Bool.not_eq_true]
    exact fun hh => ho.source ev hev (Event.source_of_handles hh)
  rw [h.trace] at hsplit
  rcases split_append hsplit with ⟨u', hr, rfl⟩ | ⟨r', hes, -⟩
  · -- the hook ran before the step
    obtain ⟨hp, hquiet⟩ := hs r u' w n b hr fun w' n' hm =>
      hno w' n' (List.mem_append_left _ hm)
    rcases h.outside with ⟨ho, -⟩ | ⟨-, hl⟩
    · refine ⟨ho.phase ▸ hp, fun ev hev => ?_⟩
      exact (List.mem_append.mp hev).elim (hquiet ev) (hout ho ev)
    · obtain ⟨hq, hp'⟩ := hl.hushed hp
      refine ⟨hp'.resolve_right ?_, fun ev hev => ?_⟩
      · rintro ⟨w', n', hm⟩
        exact hno w' n' (List.mem_append_right _ hm)
      · exact (List.mem_append.mp hev).elim (hquiet ev) (hq ev)
  · -- the hook runs in the step
    have hmem : .stopped w n b ∈ es := by
      rw [hes]
      exact List.mem_append_right _ List.mem_cons_self
    rcases h.outside with ⟨ho, -⟩ | ⟨-, hl⟩
    · exact absurd rfl (ho.source _ hmem)
    · obtain ⟨hp, hq⟩ := hl.stops hmem
      refine ⟨hp, fun ev hev => hq ev ?_⟩
      rw [hes]
      exact List.mem_append_right _ (List.mem_cons_of_mem _ hev)

/-- When the loop's future is gone, its phase stays and nothing is accepted. -/
theorem ended_step {E : Environment A} {s t : Sys A} {es : List (Event A)} (h : E.Step s t es)
    (hheld : s.ReceiverHeld) {o : Exit A} (hp : s.phase = .ended o) :
    t.phase = .ended o ∧ accepted es = [] ∧ ∀ ev ∈ es, ev.source ≠ .loop := by
  rcases h.outside with ⟨ho, he⟩ | ⟨-, hl⟩
  · refine ⟨ho.phase ▸ hp, ?_, ho.source⟩
    rcases he.accepted with ⟨-, hacc⟩ | ⟨hr, -⟩
    · exact hacc
    · rw [hheld, hp] at hr
      cases hr
  · have hn := hl.not_ended
    rw [hp] at hn
    cases hn

end Sys

end Actor

open Behaviour (registered)

variable {B : Behaviour}

namespace Timed

variable {E : Environment B.actor} {a : B.State} {x y : Timed B}

/-- The timers that the calls of the hooks and handlers have spawned. -/
def spawned (E : Environment B.actor) (a : B.State) (x : Timed B) : List (TimerTask B.Message) :=
  (registered E ⟨a, Context.new, none⟩ x.sys.trace).flatMap ContextCall.tasks

namespace Reachable

theorem replayed (h : Reachable E a x) :
    x.sys.HasCore (replay E ⟨a, Context.new, none⟩ x.sys.trace) :=
  sys_invariant (P := fun s => s.HasCore (replay E ⟨a, Context.new, none⟩ s.trace))
    (fun _ _ _ hs hst => hs.step hst) h ⟨rfl, rfl, fun _ => rfl⟩

theorem receiverHeld (h : Reachable E a x) : x.sys.ReceiverHeld :=
  sys_invariant (fun _ _ _ hs hst => hs.step hst) h rfl

theorem logged (h : Reachable E a x) : x.sys.Logged :=
  sys_invariant (fun _ _ _ hs hst => hs.step hst) h
    ⟨fun _ => rfl, List.nil_prefix, fun _ => rfl⟩

theorem hushed (h : Reachable E a x) : x.sys.Hushed :=
  sys_invariant (fun _ _ _ hs hst => hs.step hst) h fun t u w n b hsplit => by
    simp [init, Environment.init] at hsplit

theorem unwinds (h : Reachable E a x) : x.sys.Unwinds :=
  sys_invariant (fun _ _ _ hs hst => hs.step hst) h
    (Environment.Reachable.unwinds (E := E) (.refl _ _))

theorem ctx_tasks (h : Reachable E a x) : Context.tasks x.sys.ctx = x.spawned E a := by
  rw [← h.replayed.ctx, Behaviour.replay_ctx, Context.performAll_tasks]
  rfl

/-- The context has the handles of the timers that were spawned; they are aborted exactly
when it is dropped. -/
theorem context_tasks (h : Reachable E a x) : x.sys.context.tasks =
    if x.sys.ctxDropped then (x.spawned E a).map TimerTask.abort else x.spawned E a := by
  rw [← h.ctx_tasks, Sys.context]
  split <;> rfl

end Reachable

/-- A timer that is polled, has woken or is done was spawned. -/
def Awake (x : Timed B) : Prop :=
  ∀ i, x.phases i ≠ .sleeping ∨ x.polled i = true → i < (Context.tasks x.sys.ctx).length

theorem Awake.step (h : x.Awake) (hx : x.Known) {l : TimedLabel B} (hst : Step E x l y) :
    y.Awake := by
  have hlen := (hx.step hst).2
  intro k hk
  refine lt_of_lt_of_le ?_ hlen
  cases hst with
  | sys l t ht => exact h k hk
  | poll i task hp ht =>
    by_cases hki : k = i
    · exact hki ▸ task_lt ht
    · exact h k (by simpa [setPolled, Function.update_of_ne hki] using hk)
  | pend i hp hr =>
    by_cases hki : k = i
    · exact h k (.inr (hki ▸ hp))
    · exact h k (by simpa [setPolled, Function.update_of_ne hki] using hk)
  | wake i task n hp ht =>
    by_cases hki : k = i
    · exact hki ▸ task_lt ht
    · exact h k (by simpa [woken, Function.update_of_ne hki] using hk)
  | resume i j o r p hp ho hr hn =>
    by_cases hki : k = i
    · exact h k (.inl (by simp [hki, hp]))
    · exact h k (by simpa [setPhase, Function.update_of_ne hki] using hk)
  | abortSleep i hp task ht =>
    by_cases hki : k = i
    · exact hki ▸ task_lt ht
    · exact h k (by simpa [setPhase, Function.update_of_ne hki] using hk)
  | abortSend i j t hp ht =>
    by_cases hki : k = i
    · exact h k (.inl (by simp [hki, hp]))
    · exact h k (by simpa [setPhase, Function.update_of_ne hki] using hk)

theorem Reachable.awake (h : Reachable E a x) : x.Awake := by
  refine (Machine.invariant (P := fun x : Timed B => x.Known ∧ x.Awake) (fun x l y hx hst => ?_)
    ⟨fun p hp => (by cases hp), fun i hi => ?_⟩ h).2
  · exact ⟨(hx.1.step (step_cases hst)).1, hx.2.step hx.1 (step_cases hst)⟩
  · simp [init] at hi

/-! ### Polls -/

/-- Between two polls no timer is about to push. -/
def Calm (x : Timed B) : Prop := ∀ i, x.polled i = false → x.pending i = 0

theorem pending_of_rests {i : ℕ} (h : x.rests i = true) : x.pending i = 0 := by
  refine pending_eq_zero fun j hj => ?_
  rw [rests, hj] at h
  cases ho : x.sys.ops[j]? with
  | none => simp [ho] at h
  | some o =>
    rw [Sys.unsent_of_state ho]
    cases hst : o.state <;> simp_all [OpState.isBegun]

theorem Calm.step (h : x.Calm) (ho : x.Owned) {l : TimedLabel B} (hst : Step E x l y) :
    y.Calm := by
  intro k hk
  have hle : x.polled k = false → y.pending k ≤ x.pending k → y.pending k = 0 := by
    intro hx hle
    have := h k hx
    omega
  cases hst with
  | sys l t ht =>
    obtain ⟨es, ht⟩ := Environment.step_cases ht
    exact hle hk (ho.pending_sys_le ht.pushes.2.unsent k)
  | poll i task hp ht =>
    by_cases hki : k = i
    · simp [setPolled, hki] at hk
    · exact hle (by simpa [setPolled, Function.update_of_ne hki] using hk) (le_refl _)
  | pend i hp hr =>
    by_cases hki : k = i
    · subst hki
      exact pending_of_rests (x := x) hr
    · exact hle (by simpa [setPolled, Function.update_of_ne hki] using hk) (le_refl _)
  | wake i task n hp ht ha =>
    have hki : k ≠ i := by
      rintro rfl
      rw [show x.polled k = false from hk] at ha
      cases ha
    obtain ⟨⟨o, -, hops⟩, -⟩ := x.sys.trySend_adds (task.method n)
    exact hle hk (ho.pending_woken hops hki).le
  | resume i j o r p hp hj hr hn => exact hle hk (pending_setPhase_le x i k hn)
  | abortSleep i hp task ht => exact hle hk (pending_setPhase_le x i k (by simp))
  | abortSend i j t hp ht =>
    obtain ⟨es, ht⟩ := Environment.step_cases ht
    have hsys := ho.pending_sys_le ht.pushes.2.unsent k
    exact hle hk ((pending_setPhase_le _ i k (by simp)).trans hsys)

theorem Reachable.calm (h : Reachable E a x) : x.Calm := by
  refine (Machine.invariant (P := fun x : Timed B => x.Owned ∧ x.Calm) (fun x l y hx hst => ?_)
    ⟨owned_init E a, fun i _ => rfl⟩ h).2
  exact ⟨hx.1.step (step_cases hst), hx.2.step hx.1 (step_cases hst)⟩

/-! ### Behind the drop of the context -/

/-- The context is dropped for good, and with it the timers are aborted. -/
theorem Reachable.dropped_run (h : Reachable E a x) (hd : x.sys.ctxDropped = true)
    (hr : (system E).Reaches x y) : y.sys.ctxDropped = true ∧
      ∀ (i : ℕ) (task : TimerTask B.Message), (x.spawned E a)[i]? = some task →
        y.sys.context.tasks[i]? = some task.abort := by
  have hinv := sys_invariant (E := E)
    (P := fun s => s.ctxDropped = true ∧ ∃ calls, s.ctx = Context.performAll x.sys.ctx calls)
    (fun s t es hs hst => ?_) hr ⟨hd, [], rfl⟩
  · obtain ⟨hdy, calls, hcalls⟩ := hinv
    refine ⟨hdy, fun i task ht => ?_⟩
    rw [← h.ctx_tasks] at ht
    rw [Sys.context, if_pos hdy, hcalls, Context.drop, List.getElem?_map,
      Context.performAll_tasks, List.getElem?_append_left (List.getElem?_eq_some_iff.mp ht).1, ht]
    rfl
  · obtain ⟨hds, calls, hs⟩ := hs
    obtain ⟨calls', ht⟩ := hst.ctx_eq
    exact ⟨Sys.ctxDropped_step hst hds, calls ++ calls', by rw [ht, hs, Context.performAll_append]⟩

/-- An aborted future is not polled again. -/
theorem poll_dropped (hd : x.sys.ctxDropped = true) (i : ℕ) :
    (system E).step x (.poll i) = none := by
  show x.poll i = none
  unfold poll
  split
  · next task ht =>
    rw [Sys.context, if_pos hd, Context.drop, List.getElem?_map] at ht
    obtain ⟨task', -, rfl⟩ := Option.map_eq_some_iff.mp ht
    simp [TimerTask.abort]
  · rfl

/-- A timer that is not polled while the context is dropped, and has put nothing into the
mailbox since. -/
structure Spent (x y : Timed B) (i : ℕ) : Prop where
  dropped : y.sys.ctxDropped = true
  rests : y.polled i = false
  put : ∃ u, y.sys.trace = x.sys.trace ++ u ∧ y.put i u = 0

/-- What the sends of other timers do not change. -/
theorem put_woken {i k : ℕ} (hik : i ≠ k) (t : Sys B.actor) (u : List (Event B.actor)) :
    (x.woken k t).put i u = x.put i u := by
  refine List.countP_congr fun e _ => ?_
  simp [woken, hik]

theorem Spent.sys {i : ℕ} (h : x.Spent y i) (ho : y.Owned) (hc : y.Calm) {t : Sys B.actor}
    {es : List (Event B.actor)} (hst : E.Step y.sys t es) : x.Spent { y with sys := t } i := by
  obtain ⟨u, hu, hput⟩ := h.put
  refine ⟨Sys.ctxDropped_step hst h.dropped, h.rests, u ++ es, ?_, ?_⟩
  · show t.trace = _
    rw [hst.trace, hu, List.append_assoc]
  · have hnone : y.put i es = 0 := by
      cases hst.pushes.2 with
      | none he =>
        rw [Timed.put, he]
        rfl
      | one k o he hk =>
        -- the timer has nothing to push between two polls
        have hik : (i, k) ∉ y.sends := by
          intro hmem
          have hpend := hc i h.rests
          rw [pending, show y.phases i = .sending k from ho.unsent _ hmem hk] at hpend
          simp [hk] at hpend
        rw [Timed.put, he]
        simp [Sys.envelope, hik]
    show y.put i (u ++ es) = 0
    rw [put_append, hput, hnone]

theorem Spent.step {i : ℕ} (h : x.Spent y i) (ho : y.Owned) (hc : y.Calm) {z : Timed B}
    {l : TimedLabel B} (hst : (system E).step y l = some z) : x.Spent z i := by
  obtain ⟨u, hu, hput⟩ := h.put
  cases step_cases hst with
  | sys l t ht =>
    obtain ⟨es, ht⟩ := Environment.step_cases ht
    exact h.sys ho hc ht
  | poll k =>
    rw [poll_dropped h.dropped] at hst
    cases hst
  | pend k hp hr =>
    refine ⟨h.dropped, ?_, u, hu, hput⟩
    by_cases hik : i = k
    · simp [setPolled, hik]
    · simpa [setPolled, Function.update_of_ne hik] using h.rests
  | wake k task n hp ht ha =>
    have hik : i ≠ k := by
      rintro rfl
      rw [h.rests] at ha
      cases ha
    obtain ⟨es, hes⟩ := Sys.trySend_step E y.sys (task.offers n)
    obtain ⟨hd, hr, v, hv, hputv⟩ := h.sys ho hc hes
    exact ⟨hd, hr, v, hv, (put_woken hik _ _).trans hputv⟩
  | resume k | abortSleep k => exact ⟨h.dropped, h.rests, u, hu, hput⟩
  | abortSend k j t hp ht =>
    obtain ⟨es, ht⟩ := Environment.step_cases ht
    obtain ⟨hd, hr, v, hv, hputv⟩ := h.sys ho hc ht
    exact ⟨hd, hr, v, hv, hputv⟩

/-- A timer that is not polled while the context is dropped puts nothing into the mailbox
any more. -/
theorem Reachable.spent_run (h : Reachable E a x) (hd : x.sys.ctxDropped = true) {i : ℕ}
    (hi : x.polled i = false) (hr : (system E).Reaches x y) :
    y.polled i = false ∧ y.put i (x.since y) = 0 := by
  obtain ⟨-, hs⟩ := Machine.invariant (M := system E)
    (P := fun z => Reachable E a z ∧ x.Spent z i)
    (fun z l w hz hst => ⟨hz.1.next hst, hz.2.step hz.1.owned hz.1.calm hst⟩)
    ⟨h, hd, hi, [], (List.append_nil _).symm, rfl⟩ hr
  obtain ⟨u, hu, hput⟩ := hs.put
  exact ⟨hs.rests, by rwa [since, hu, List.drop_left]⟩

/-- With the loop's future the receiver is gone, and nothing is accepted. -/
theorem Reachable.ended_run (h : Reachable E a x) {o : Exit B.actor} (hp : x.sys.phase = .ended o)
    (hr : (system E).Reaches x y) :
    y.sys.phase = .ended o ∧ accepted y.sys.trace = accepted x.sys.trace := by
  have hinv := sys_invariant (E := E) (P := fun s => s.ReceiverHeld ∧ s.phase = .ended o ∧
    accepted s.trace = accepted x.sys.trace) (fun s t es hs hst => ?_) hr
    ⟨h.receiverHeld, hp, rfl⟩
  · exact hinv.2
  · obtain ⟨hheld, hps, hacc⟩ := hs
    obtain ⟨hpt, hno, -⟩ := Sys.ended_step hst hheld hps
    exact ⟨hheld.step hst, hpt, by rw [hst.trace, accepted_append, hno, List.append_nil, hacc]⟩

/-- Once the loop is over no handler runs. -/
theorem idle_run (hp : x.sys.phase.looping = false) (hr : (system E).Reaches x y) :
    ∃ u, y.sys.trace = x.sys.trace ++ u ∧ ∀ ev ∈ u, ev.handles = false := by
  refine (sys_invariant (E := E) (P := fun s => s.phase.looping = false ∧
    ∃ u, s.trace = x.sys.trace ++ u ∧ ∀ ev ∈ u, ev.handles = false) (fun s t es hs hst => ?_) hr
    ⟨hp, [], (List.append_nil _).symm, fun ev hev => by cases hev⟩).2
  obtain ⟨hps, u, hu, hquiet⟩ := hs
  obtain ⟨hpt, hes⟩ := Sys.step_idle hst hps
  refine ⟨hpt, u ++ es, by rw [hst.trace, hu, List.append_assoc], fun ev hev => ?_⟩
  rcases List.mem_append.mp hev with hev | hev
  · exact hquiet ev hev
  · rw [← Bool.not_eq_true]
    intro hh
    have hidle := hes ev hev
    rw [Event.working_of_handles hh] at hidle
    cases hidle

/-- What the end of an actor does to its timers. -/
structure Outlived (E : Environment B.actor) (a : B.State) (x : Timed B) : Prop where
  /-- A timer that does anything was spawned, ... -/
  spawned : ∀ i, x.phases i ≠ .sleeping ∨ x.polled i = true → i < (x.spawned E a).length
  /-- ... and the context has the handle of every timer that was, until it is dropped, ... -/
  held : x.sys.ctxDropped = false → ∀ (i : ℕ) (task : TimerTask B.Message),
    (x.spawned E a)[i]? = some task → x.sys.context.tasks[i]? = some task
  /-- ... before the loop's future is over. -/
  reached : ∀ o, x.sys.phase = .ended o → x.sys.ctxDropped = true
  /-- With it they are all aborted, and none is polled again. -/
  aborted : x.sys.ctxDropped = true → ∀ y, (system E).Reaches x y →
    (∀ (i : ℕ) (task : TimerTask B.Message), (x.spawned E a)[i]? = some task →
      y.sys.context.tasks[i]? = some task.abort) ∧ ∀ i, (system E).step y (.poll i) = none
  /-- A timer that is not being polled then puts nothing into the mailbox any more, ... -/
  spent : x.sys.ctxDropped = true → ∀ i, x.polled i = false → ∀ y, (system E).Reaches x y →
    y.polled i = false ∧ y.put i (x.since y) = 0
  /-- ... none does when the loop's future is over, and what is left there is gone. -/
  silent : ∀ o, x.sys.phase = .ended o → ∀ y, (system E).Reaches x y →
    accepted y.sys.trace = accepted x.sys.trace ∧ y.sys.chan.queue = []
  /-- No handler runs once the context is dropped, ... -/
  unhandled : x.sys.ctxDropped = true → ∀ y, (system E).Reaches x y →
    ∃ u, y.sys.trace = x.sys.trace ++ u ∧ ∀ ev ∈ u, ev.handles = false
  /-- ... nor behind the last `stopped` hook, ... -/
  hushed : ∀ t u w n b, x.sys.trace = t ++ .stopped w n b :: u →
    (∀ w' n', .started w' n' true ∉ u) → ∀ ev ∈ u, ev.handles = false
  /-- ... from where the loop is left and that hook begins. -/
  closed : x.sys.phase = .stopping → ∀ y, (system E).Reaches x y →
    ∃ u, y.sys.trace = x.sys.trace ++ u ∧ ∀ ev ∈ u, ev.handles = false

end Timed

/-- **No timer outlives its actor**, on either loop and however its future ends, but for a
poll that is under way while the context is dropped. -/
theorem no_timer_outlives {E : Environment B.actor} {a : B.State} {x : Timed B}
    (h : Timed.Reachable E a x) : x.Outlived E a where
  spawned i hi := by
    rw [← h.ctx_tasks]
    exact h.awake i hi
  held hd i task ht := by
    rw [h.context_tasks, hd]
    exact ht
  reached := h.unwinds.ended
  aborted hd y hr := by
    obtain ⟨hdy, htasks⟩ := h.dropped_run hd hr
    exact ⟨htasks, Timed.poll_dropped hdy⟩
  spent hd i hi y hr := h.spent_run hd hi hr
  silent o ho y hr := by
    obtain ⟨hp, hacc⟩ := h.ended_run ho hr
    have hy : Timed.Reachable E a y := h.trans hr
    refine ⟨hacc, hy.logged.dropped ?_⟩
    rw [hy.receiverHeld, hp]
    rfl
  unhandled hd y hr := by
    obtain ⟨o, ho⟩ := h.unwinds.leaves hd
    refine Timed.idle_run ?_ hr
    cases hp : x.sys.phase <;> simp [hp, Phase.exit?] at ho <;> rfl
  hushed t u w n b hsplit hno := (h.hushed t u w n b hsplit hno).2
  closed hp y hr := Timed.idle_run (by rw [hp]; rfl) hr

namespace Twins

/-- Both timers tick; the first message is handled, the second timer is being polled and has
yet to push its message when a `Stop` has ended the loop and the context is dropped. -/
def leaving : List (TimedLabel twins) :=
  [.sys (.loop (.hook ())), .poll 0, .wake 0, .sys (.op (.push 0)), .pend 0,
    .sys (.op (.begin .stop 0)), .sys (.op (.push 1)), .sys (.loop .recv),
    .sys (.loop (.pollTask () ⟨false, false⟩)), .sys (.loop .recv), .poll 1, .wake 1,
    .sys (.loop (.hook ())), .sys (.loop .notify), .sys (.loop .dropContext)]

/-- Its message enters the mailbox and is dropped with the receiver. -/
def late : List (TimedLabel twins) :=
  [.sys (.op (.push 2)), .pend 1, .abort 1, .sys (.loop .release)]

end Twins

/-- The timers of an actor that was stopped are aborted. -/
theorem no_timer_outlives_of_stop : ∃ x : Timed twins,
    (Timed.system Twins.env).run (Timed.init Twins.env (0 : ℕ)) (Twins.leaving ++ Twins.late) =
      some x ∧
    x.sys.phase.isEnded = true ∧ x.Outlived Twins.env (0 : ℕ) :=
  ⟨_, rfl, rfl, no_timer_outlives ⟨Twins.leaving ++ Twins.late, rfl⟩⟩

/-- A poll that is under way puts a message into the mailbox behind the drop of the context. -/
theorem not_silent_behind_drop : ¬ ∀ (x y : Timed twins),
    Timed.Reachable Twins.env (0 : ℕ) x → x.sys.ctxDropped = true →
    (Timed.system Twins.env).Reaches x y → ∀ i, y.put i (x.since y) = 0 := by
  intro h
  exact absurd (h _ _ ⟨Twins.leaving, rfl⟩ rfl ⟨Twins.late, rfl⟩ 1) (by decide)

end Hannibal
