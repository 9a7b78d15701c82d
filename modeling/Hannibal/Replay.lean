/-
Replaying a trace.

What an actor does depends on its value, its context, the payloads and items it
takes and what its hooks and handlers see of the world.  `Core.feed` computes
from one recorded event after the other what that makes of the value and the
context; nothing else of the state enters.

* `Reachable.replayed` — the replay of the trace yields the actor value, the
  context and the future in progress;
* `Reachable.replay_from` — behind a point of the trace only the value, the
  context and the future at that point count.
-/
import Hannibal.Completion

namespace Hannibal

variable {A : Actor}

/-- The actor value, its context and the handler's future in progress. -/
structure Core (A : Actor) where
  actor : A.State
  ctx : A.Ctx
  fut : Option (TaskFuture A ⊕ A.Fut)

namespace Core

/-- What one recorded event makes of them. -/
def feed (E : Environment A) (k : Core A) : Event A → Core A
  | .started w _ _ =>
    { k with actor := (A.started w k.actor k.ctx).2.1, ctx := (A.started w k.actor k.ctx).2.2 }
  | .stopped w _ _ =>
    { k with actor := (A.stopped w k.actor k.ctx).1, ctx := (A.stopped w k.actor k.ctx).2 }
  | .finished w _ =>
    { k with actor := (A.finished w k.actor k.ctx).1, ctx := (A.finished w k.actor k.ctx).2 }
  | .recreated _ => { k with actor := A.default }
  | .taken e =>
    match e.payload with
    | .task f => { k with fut := some (.inl f.future) }
    | _ => k
  | .itemTaken x => { k with fut := some (.inr (A.handleItem x)) }
  | .polled w sel _ =>
    match k.fut with
    | some (.inl fut) =>
      match timeoutFut E.taskTimeout sel w fut k.actor k.ctx with
      | (.pending fut, a, c) => ⟨a, c, some (.inl fut)⟩
      | (_, a, c) => ⟨a, c, none⟩
    | _ => k
  | .itemPolled w _ =>
    match k.fut with
    | some (.inr fut) =>
      match A.poll w fut k.actor k.ctx with
      | (.inl fut, a, c) => ⟨a, c, some (.inr fut)⟩
      | (.inr _, a, c) => ⟨a, c, none⟩
    | _ => k
  | _ => k

end Core

/-- What a history makes of a core. -/
def replay (E : Environment A) (k : Core A) (t : List (Event A)) : Core A :=
  t.foldl (Core.feed E) k

theorem replay_append (E : Environment A) (k : Core A) (t u : List (Event A)) :
    replay E k (t ++ u) = replay E (replay E k t) u := List.foldl_append

theorem Core.feed_eq_self {E : Environment A} {k : Core A} {ev : Event A}
    (h : ev.source ≠ .loop) : k.feed E ev = k := by
  cases ev <;> first | rfl | exact absurd rfl h

theorem replay_eq_self {E : Environment A} {k : Core A} {t : List (Event A)}
    (h : ∀ ev ∈ t, ev.source ≠ .loop) : replay E k t = k := by
  induction t with
  | nil => rfl
  | cons ev t ih =>
    rw [replay, List.foldl_cons, Core.feed_eq_self (h ev (List.mem_cons_self ..))]
    exact ih fun ev' hev' => h ev' (List.mem_cons_of_mem _ hev')

/-- The future the phase holds. -/
def Phase.fut : Phase A → Option (TaskFuture A ⊕ A.Fut)
  | .task _ fut => some (.inl fut)
  | .item _ fut => some (.inr fut)
  | _ => none

namespace Sys

/-- The core a state has, while its loop's future runs. -/
structure HasCore (s : Sys A) (k : Core A) : Prop where
  actor : k.actor = s.actor
  ctx : k.ctx = s.ctx
  fut : s.phase.exit? = none → k.fut = s.phase.fut

theorem afterLoop_fut (E : Environment A) : E.afterLoop.fut = none := by
  unfold Environment.afterLoop
  split <;> rfl

theorem LoopStep.feeds {E : Environment A} {s t : Sys A} {es : List (Event A)} {k : Core A}
    (h : s.LoopStep E t es) (hk : s.HasCore k) : t.HasCore (replay E k es) := by
  obtain ⟨a₀, c₀, fut₀⟩ := k
  obtain ⟨rfl, rfl, hfut⟩ := hk
  have hrest : ∀ {p : Phase A}, s.phase = p → p.exit? = none → fut₀ = p.fut := by
    rintro p rfl hp
    exact hfut hp
  cases h with
  | startOk w es a c u hp h | startErr w es e a c hp h =>
    cases hp with
    | first hp | refresh i hp =>
      exact ⟨by simp [replay, Core.feed, h], by simp [replay, Core.feed, h],
        fun _ => show fut₀ = none from hrest hp rfl⟩
  | dropContext => exact ⟨rfl, rfl, hfut⟩
  | refreshStop w i hp | recreate w i hp | finishing w hp | stopping w hp | streamEnd items hp =>
    exact ⟨rfl, rfl, fun _ => show fut₀ = none from hrest hp rfl⟩
  | notify | release => exact ⟨rfl, rfl, fun hn => by cases hn⟩
  | takeTask es e q f hr hq hf =>
    obtain ⟨-, rfl | rfl⟩ := hr.events <;>
      exact ⟨by simp [replay, Core.feed, hf], by simp [replay, Core.feed, hf],
        fun _ => by simp [replay, Core.feed, hf, Phase.fut]⟩
  | takeStop es e q hr hq hf =>
    obtain ⟨hp, rfl | rfl⟩ := hr.events <;>
      refine ⟨by simp [replay, Core.feed, hf], by simp [replay, Core.feed, hf], fun _ => ?_⟩ <;>
      · rw [record_phase, afterLoop_fut]
        simp [replay, Core.feed, hf, hrest hp rfl, Phase.fut]
  | mailboxEnd es hr =>
    obtain ⟨hp, rfl | rfl⟩ := hr.events <;>
      refine ⟨rfl, rfl, fun _ => ?_⟩ <;>
      · rw [record_phase, afterLoop_fut]
        exact hrest hp rfl
  | restartPanic es e q hr hs hq hf =>
    obtain ⟨-, rfl | rfl⟩ := hr.events <;>
      exact ⟨by simp [replay, Core.feed, hf], by simp [replay, Core.feed, hf],
        fun hn => by cases hn⟩
  | takeRestart e q hp hs hq hf | ignoreRestart e q hp hs hq hf =>
    exact ⟨by simp [replay, Core.feed, hf], by simp [replay, Core.feed, hf],
      fun _ => by simp [replay, Core.feed, hf, hrest hp rfl, Phase.fut]⟩
  | takeItem items x hp => exact ⟨rfl, rfl, fun _ => rfl⟩
  | streamPending hp => exact ⟨rfl, rfl, hfut⟩
  | taskPending i w sel fut fut' a c hp h =>
    have hk : replay E ⟨s.actor, s.ctx, fut₀⟩ [.polled w sel fut] = ⟨a, c, some (.inl fut')⟩ := by
      simp [replay, Core.feed, hrest hp rfl, Phase.fut, h]
    rw [hk]
    exact ⟨rfl, rfl, fun _ => rfl⟩
  | taskDone i w sel fut reply a c hp h =>
    have hk : replay E ⟨s.actor, s.ctx, fut₀⟩ [.polled w sel fut, .completed i reply] =
        ⟨a, c, none⟩ := by
      simp [replay, Core.feed, hrest hp rfl, Phase.fut, h]
    rw [hk]
    exact ⟨rfl, rfl, fun _ => rfl⟩
  | taskOverran i w sel fut a c hp h =>
    have hk : replay E ⟨s.actor, s.ctx, fut₀⟩ [.polled w sel fut, .overran i] =
        ⟨a, c, none⟩ := by
      simp [replay, Core.feed, hrest hp rfl, Phase.fut, h]
    rw [hk]
    refine ⟨rfl, rfl, fun _ => ?_⟩
    simp only [Sys.overrun, record_phase]
    split <;> rfl
  | itemPending x w fut fut' a c hp h =>
    have hk : replay E ⟨s.actor, s.ctx, fut₀⟩ [.itemPolled w fut] = ⟨a, c, some (.inr fut')⟩ := by
      simp [replay, Core.feed, hrest hp rfl, Phase.fut, h]
    rw [hk]
    exact ⟨rfl, rfl, fun _ => rfl⟩
  | itemDone x w fut r a c hp h =>
    have hk : replay E ⟨s.actor, s.ctx, fut₀⟩ [.itemPolled w fut, .itemHandled x] =
        ⟨a, c, none⟩ := by
      simp [replay, Core.feed, hrest hp rfl, Phase.fut, h]
    rw [hk]
    exact ⟨rfl, rfl, fun _ => rfl⟩
  | crash o ho hs =>
    -- the future is dropped as it is; actor and context stay where it left them
    unfold Sys.crash
    split <;> exact ⟨rfl, rfl, fun hn => by cases hn⟩

theorem HasCore.step {E : Environment A} {s t : Sys A} {es : List (Event A)} {k : Core A}
    (hs : s.HasCore (replay E k s.trace)) (h : E.Step s t es) :
    t.HasCore (replay E k t.trace) := by
  rcases h.outside with ⟨ho, -⟩ | ⟨-, hl⟩
  · rw [ho.trace, replay_append, replay_eq_self ho.source]
    exact ⟨hs.actor.trans ho.actor.symm, hs.ctx.trans ho.ctx.symm, ho.phase ▸ hs.fut⟩
  · rw [hl.trace, replay_append]
    exact hl.feeds hs

theorem LoopStep.returns {E : Environment A} {s t : Sys A} {es : List (Event A)}
    (h : s.LoopStep E t es) {a : A.State} (ha : t.phase.exit? = some (.ok a)) :
    t.actor = a ∨ s.phase.exit? = some (.ok a) ∧ t.actor = s.actor := by
  cases h with
  | stopping w hp =>
    cases ha
    exact .inl rfl
  | notify o hp | release o hp =>
    refine .inr ⟨?_, rfl⟩
    rw [hp]
    exact ha
  | dropContext => exact .inr ⟨ha, rfl⟩
  | takeStop | mailboxEnd =>
    simp only [record_phase, Environment.afterLoop] at ha
    split at ha <;> cases ha
  | taskOverran =>
    simp only [Sys.overrun, record_phase] at ha
    split at ha <;> cases ha
  | crash o ho hs =>
    unfold Sys.crash at ha
    rcases ho with ⟨rfl, -⟩ | rfl <;> split at ha <;> cases ha
  | streamPending hp =>
    rw [record_phase, hp] at ha
    cases ha
  | _ => cases ha

/-- Where the loop's future ends with `Ok`, it returns the actor value. -/
def Returns (s : Sys A) : Prop := ∀ a, s.phase.exit? = some (.ok a) → s.actor = a

theorem Returns.step {E : Environment A} {s t : Sys A} {es : List (Event A)} (hs : s.Returns)
    (h : E.Step s t es) : t.Returns := by
  intro a ha
  rcases h.outside with ⟨ho, -⟩ | ⟨-, hl⟩
  · rw [ho.actor]
    exact hs a (ho.phase ▸ ha)
  · rcases hl.returns ha with hta | ⟨hsa, hta⟩
    · exact hta
    · rw [hta]
      exact hs a hsa

end Sys

namespace Environment.Reachable

variable {E : Environment A} {a : A.State} {c : A.Ctx} {s : Sys A}

/-- Replaying the trace yields the actor value, the context and the future. -/
theorem replayed (h : E.Reachable a c s) : s.HasCore (replay E ⟨a, c, none⟩ s.trace) := by
  exact reachable_induction (P := fun s => s.HasCore (replay E ⟨a, c, none⟩ s.trace))
    ⟨rfl, rfl, fun _ => rfl⟩ (fun s t es _ _ hs hst => hs.step hst) h

/-- Behind a point of the trace only the core at that point counts. -/
theorem replay_from (h : E.Reachable a c s) {t u : List (Event A)} (ht : s.trace = t ++ u) :
    s.HasCore (replay E (replay E ⟨a, c, none⟩ t) u) := by
  rw [← replay_append, ← ht]
  exact h.replayed

theorem returns (h : E.Reachable a c s) : s.Returns :=
  reachable_induction (P := Sys.Returns) (fun a ha => by cases ha)
    (fun _ _ _ _ _ hs hst => hs.step hst) h

end Environment.Reachable

end Hannibal
