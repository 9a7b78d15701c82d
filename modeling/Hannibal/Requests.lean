/-
Requests and their responses.

`Handling` follows the task the loop runs from the message it was enqueued with,
poll by poll, to its completion; `Answered` follows the response channel of each
operation, which is resolved by that completion or canceled when the task is
dropped; `Replies` follows what the waiting operations return, and `Op.Shaped` says
what an operation can return by its kind.  Together with
the order in which the loop concludes payloads they give `request_contract`.
-/
import Hannibal.Work

open scoped List

namespace Hannibal

variable {A : Actor}

/-! ### Running a task -/

/-- Polled in the worlds `ws`, one after the other, the task waits each time. -/
inductive Waits (f : TaskFuture A) (a : A.State) (c : A.Ctx) :
    List A.World → TaskFuture A → A.State → A.Ctx → Prop where
  | nil : Waits f a c [] f a c
  | snoc {ws : List A.World} {f' f'' : TaskFuture A} {a' a'' : A.State} {c' c'' : A.Ctx}
      (w : A.World) (h : Waits f a c ws f' a' c') (hp : f'.poll w a' c' = (.inl f'', a'', c'')) :
      Waits f a c (ws ++ [w]) f'' a'' c''

/-- Polled in the worlds `ws` the task completes with the last poll. -/
def Completes (f : TaskFuture A) (a : A.State) (c : A.Ctx) (ws : List A.World)
    (reply : Option (Reply A)) : Prop :=
  ∃ vs w f' a' c', ws = vs ++ [w] ∧ Waits f a c vs f' a' c' ∧ (f'.poll w a' c').1 = .inr reply

def TaskFuture.responds : TaskFuture A → Bool
  | .handling _ b => b
  | .ping => true

/-- The payload has a response channel. -/
def Payload.responds : Payload A → Bool
  | .task (.call _) => true
  | .task (.send _) => false
  | .task .ping => true
  | .stop => false
  | .restart => false

theorem TaskFn.future_responds (f : TaskFn A) :
    f.future.responds = (Payload.task f).responds := by
  cases f <;> rfl

theorem TaskFuture.poll_inl {w : A.World} {f f' : TaskFuture A} {a a' : A.State} {c c' : A.Ctx}
    (h : f.poll w a c = (.inl f', a', c')) : f'.responds = f.responds := by
  cases f with
  | ping => cases h
  | handling fut b =>
    rcases hp : A.poll w fut a c with ⟨g | r, a₁, c₁⟩ <;> simp only [TaskFuture.poll, hp] at h
    · cases h
      rfl
    · cases h

/-- A task with a response channel completes with a response, the others with
none. -/
theorem TaskFuture.poll_inr {w : A.World} {f : TaskFuture A} {a : A.State} {c : A.Ctx}
    {reply : Option (Reply A)} (h : (f.poll w a c).1 = .inr reply) :
    reply.isSome = f.responds := by
  cases f with
  | ping =>
    cases h
    rfl
  | handling fut b =>
    rcases hp : A.poll w fut a c with ⟨g | r, a₁, c₁⟩ <;> simp only [TaskFuture.poll, hp] at h
    · cases h
    · cases h
      cases b <;> rfl

theorem Waits.responds {f f' : TaskFuture A} {a a' : A.State} {c c' : A.Ctx}
    {ws : List A.World} (h : Waits f a c ws f' a' c') : f'.responds = f.responds := by
  induction h with
  | nil => rfl
  | snoc w h hp ih => rw [TaskFuture.poll_inl hp, ih]

theorem timeoutFut_pending {T : Option ℕ} {sel : Select} {w : A.World} {f f' : TaskFuture A}
    {a a' : A.State} {c c' : A.Ctx} (h : timeoutFut T sel w f a c = (.pending f', a', c')) :
    f.poll w a c = (.inl f', a', c') := by
  unfold timeoutFut at h
  cases T with
  | none =>
    rcases hp : f.poll w a c with ⟨g | r, b, d⟩ <;> simp only [hp] at h <;> cases h
    rfl
  | some n =>
    simp only at h
    split at h
    · cases h
    · rcases hp : f.poll w a c with ⟨g | r, b, d⟩ <;> simp only [hp] at h
      · split at h <;> cases h
        rfl
      · cases h

theorem timeoutFut_ok {T : Option ℕ} {sel : Select} {w : A.World} {f : TaskFuture A}
    {a a' : A.State} {c c' : A.Ctx} {reply : Option (Reply A)}
    (h : timeoutFut T sel w f a c = (.ok reply, a', c')) :
    f.poll w a c = (.inr reply, a', c') := by
  unfold timeoutFut at h
  cases T with
  | none =>
    rcases hp : f.poll w a c with ⟨g | r, b, d⟩ <;> simp only [hp] at h <;> cases h
    rfl
  | some n =>
    simp only at h
    split at h
    · cases h
    · rcases hp : f.poll w a c with ⟨g | r, b, d⟩ <;> simp only [hp] at h
      · split at h <;> cases h
      · cases h
        rfl

/-! ### The task in progress -/

def Event.polled? : Event A → Option A.World
  | .polled w _ _ => some w
  | _ => none

/-- The worlds in which tasks were polled. -/
def polls (t : List (Event A)) : List A.World := t.filterMap Event.polled?

@[simp] theorem polls_append (t u : List (Event A)) : polls (t ++ u) = polls t ++ polls u :=
  List.filterMap_append

theorem polls_eq_nil {t : List (Event A)} (h : ∀ ev ∈ t, ev.source ≠ .loop) : polls t = [] := by
  refine List.filterMap_eq_nil_iff.mpr fun ev hev => ?_
  cases ev <;> first | rfl | exact absurd rfl (h _ hev)

/-- In the trace `t` the task `f` began under the id `i`, and the polls recorded
from there on, and no others, completed it with `reply`. -/
def Ran (t : List (Event A)) (i : ℕ) (f : TaskFn A) (reply : Option (Reply A)) : Prop :=
  ∃ pre n mid post a c, t = pre ++ .begun i n :: (mid ++ .completed i reply :: post) ∧
    Completes f.future a c (polls mid) reply

theorem Ran.append {t : List (Event A)} {i : ℕ} {f : TaskFn A} {reply : Option (Reply A)}
    (h : Ran t i f reply) (es : List (Event A)) : Ran (t ++ es) i f reply := by
  obtain ⟨pre, n, mid, post, a, c, rfl, hc⟩ := h
  exact ⟨pre, n, mid, post ++ es, a, c, by simp, hc⟩

namespace Sys

/-- The task in progress is the one that was taken, polled as recorded since it
began; what completed had been run like that. -/
structure Handling (s : Sys A) : Prop where
  progress : ∀ i fut, s.phase = .task i fut → ∃ e f pre n mid a c, .taken e ∈ s.trace ∧
    e.id = i ∧ e.payload = .task f ∧ s.trace = pre ++ .begun i n :: mid ∧
    Waits f.future a c (polls mid) fut s.actor s.ctx
  done : ∀ i reply, .completed i reply ∈ s.trace → ∃ e f, .taken e ∈ s.trace ∧ e.id = i ∧
    e.payload = .task f ∧ Ran s.trace i f reply

/-- A step of the loop that leaves a task in progress. -/
theorem LoopStep.task {E : Environment A} {s t : Sys A} {es : List (Event A)}
    (h : s.LoopStep E t es) {i : ℕ} {fut : TaskFuture A} (hp : t.phase = .task i fut) :
    (∃ e q f pre n, s.chan.queue = e :: q ∧ e.id = i ∧ e.payload = .task f ∧ fut = f.future ∧
      es = pre ++ [.taken e, .begun i n]) ∨
    ∃ w sel fut₀, s.phase = .task i fut₀ ∧ es = [.polled w sel fut₀] ∧
      fut₀.poll w s.actor s.ctx = (.inl fut, t.actor, t.ctx) := by
  cases h with
  | takeTask es e q f hr hq hf =>
    cases hp
    exact .inl ⟨e, q, f, es, _, hq, rfl, hf, rfl, rfl⟩
  | taskPending j w sel fut₀ fut' a c hps h =>
    cases hp
    exact .inr ⟨w, sel, fut₀, hps, rfl, timeoutFut_pending h⟩
  | takeStop | mailboxEnd =>
    simp only [record_phase, Environment.afterLoop] at hp
    split at hp <;> cases hp
  | taskOverran =>
    simp only [Sys.overrun, record_phase] at hp
    split at hp <;> cases hp
  | crash =>
    unfold Sys.crash at hp
    split at hp <;> cases hp
  | streamPending hps =>
    rw [record_phase, hps] at hp
    cases hp
  | dropContext hd =>
    obtain ⟨o, ho | ho⟩ := phase_of_dropsContext hd <;>
    · rw [dropContext_phase, ho] at hp
      cases hp
  | _ => cases hp

theorem LoopStep.completed_mem {E : Environment A} {s t : Sys A} {es : List (Event A)}
    (h : s.LoopStep E t es) {i : ℕ} {reply : Option (Reply A)} (he : .completed i reply ∈ es) :
    ∃ w sel fut, s.phase = .task i fut ∧ es = [.polled w sel fut, .completed i reply] ∧
      (fut.poll w s.actor s.ctx).1 = .inr reply := by
  cases h with
  | taskDone j w sel fut reply' a c hp h =>
    simp only [List.mem_cons, reduceCtorEq, Event.completed.injEq, List.not_mem_nil, or_false,
      false_or] at he
    obtain ⟨rfl, rfl⟩ := he
    exact ⟨w, sel, fut, hp, rfl, congrArg Prod.fst (timeoutFut_ok h)⟩
  | startOk w' es' a c u hp => cases hp <;> simp at he
  | takeTask es' e q f hr | takeStop es' e q hr | restartPanic es' e q hr | mailboxEnd es' hr =>
    obtain ⟨-, rfl | rfl⟩ := hr.events <;> simp at he
  | _ => simp at he

theorem Handling.step {E : Environment A} {s t : Sys A} {es : List (Event A)} (hs : s.Handling)
    (h : E.Step s t es) : t.Handling := by
  have hkeep : ∀ u, t.trace = s.trace ++ u → ∀ i reply, .completed i reply ∈ s.trace →
      ∃ e f, .taken e ∈ t.trace ∧ e.id = i ∧ e.payload = .task f ∧ Ran t.trace i f reply := by
    intro u ht i reply hmem
    obtain ⟨e, f, htk, hid, hf, hran⟩ := hs.done i reply hmem
    rw [ht]
    exact ⟨e, f, List.mem_append_left _ htk, hid, hf, hran.append u⟩
  rcases h.outside with ⟨ho, -⟩ | ⟨-, hl⟩
  · constructor
    · intro i fut hp
      rw [ho.phase] at hp
      obtain ⟨e, f, pre, n, mid, a, c, htk, hid, hf, ht, hw⟩ := hs.progress i fut hp
      refine ⟨e, f, pre, n, mid ++ es, a, c, ?_, hid, hf, ?_, ?_⟩
      · rw [ho.trace]
        exact List.mem_append_left _ htk
      · rw [ho.trace, ht, List.append_assoc]
        rfl
      · rw [polls_append, polls_eq_nil ho.source, List.append_nil, ho.actor, ho.ctx]
        exact hw
    · intro i reply hmem
      rw [ho.trace, List.mem_append, or_iff_left fun hmem => ho.source _ hmem rfl] at hmem
      exact hkeep es ho.trace i reply hmem
  · constructor
    · intro i fut hp
      -- the task was taken just now, or it was polled once more
      rcases hl.task hp with ⟨e, q, f, pre, n, -, hid, hf, rfl, rfl⟩ |
        ⟨w, sel, fut₀, hps, rfl, hpoll⟩
      · refine ⟨e, f, s.trace ++ pre ++ [.taken e], n, [], t.actor, t.ctx, ?_, hid, hf, ?_, .nil⟩
        · rw [hl.trace]
          simp
        · rw [hl.trace]
          simp
      · obtain ⟨e, f, pre, n, mid, a, c, htk, hid, hf, ht, hw⟩ := hs.progress i fut₀ hps
        refine ⟨e, f, pre, n, mid ++ [.polled w sel fut₀], a, c, ?_, hid, hf, ?_, ?_⟩
        · rw [hl.trace]
          exact List.mem_append_left _ htk
        · rw [hl.trace, ht, List.append_assoc]
          rfl
        · rw [polls_append]
          exact hw.snoc w hpoll
    · intro i reply hmem
      rw [hl.trace, List.mem_append] at hmem
      rcases hmem with hmem | hmem
      · exact hkeep es hl.trace i reply hmem
      · obtain ⟨w, sel, fut, hps, rfl, hpoll⟩ := hl.completed_mem hmem
        obtain ⟨e, f, pre, n, mid, a, c, htk, hid, hf, ht, hw⟩ := hs.progress i fut hps
        refine ⟨e, f, ?_, hid, hf, pre, n, mid ++ [.polled w sel fut], [], a, c, ?_, ?_⟩
        · rw [hl.trace]
          exact List.mem_append_left _ htk
        · rw [hl.trace, ht]
          simp
        · rw [polls_append]
          exact ⟨polls mid, w, fut, s.actor, s.ctx, rfl, hw, hpoll⟩

/-! ### The response channels -/

/-- What a step of the loop does to the response channels. -/
inductive Resolves (s t : Sys A) (es : List (Event A)) : Prop where
  | keep (ha : t.answers = s.answers) (he : ∀ i r, .completed i (some r) ∉ es)
      (hq : ∀ e ∈ s.chan.queue, e.payload.responds = true →
        e ∈ t.chan.queue ∨ ∃ fut, t.phase = .task e.id fut)
      (ht : ∀ i fut, s.phase = .task i fut → ∃ fut', t.phase = .task i fut')
  | complete (i : ℕ) (fut : TaskFuture A) (reply : Option (Reply A)) (hp : s.phase = .task i fut)
      (hr : reply.isSome = fut.responds) (ha : t.answers = (s.complete i reply).answers)
      (he : ∀ j r, .completed j (some r) ∈ es ↔ j = i ∧ reply = some r)
      (hq : t.chan.queue = s.chan.queue) (ht : ∀ j f, t.phase ≠ .task j f)
  | cancel (i : ℕ) (fut : TaskFuture A) (hp : s.phase = .task i fut)
      (ha : t.answers = (s.dropAnswer i).answers) (he : ∀ i r, .completed i (some r) ∉ es)
      (hq : t.chan.queue = s.chan.queue) (ht : ∀ j f, t.phase ≠ .task j f)
  | release (o : Exit A) (hp : s.phase = .releasing o) (hp' : t.phase = .ended o)
      (ha : t.answers = (s.release o).answers) (he : ∀ i r, .completed i (some r) ∉ es)

theorem LoopStep.resolves {E : Environment A} {s t : Sys A} {es : List (Event A)}
    (h : s.LoopStep E t es) : s.Resolves t es := by
  have hno : ∀ {p : Phase A}, s.phase = p → (∀ i fut, p ≠ .task i fut) →
      ∀ i fut, s.phase = .task i fut → ∃ fut', t.phase = .task i fut' := by
    intro p hp hne i fut hpt
    exact absurd (hp.symm.trans hpt) (hne i fut)
  -- a request that leaves the queue is the task in progress
  have hhead : ∀ {e : Envelope A} {q : List (Envelope A)}, s.chan.queue = e :: q →
      t.chan.queue = q → (e.payload.responds = true → ∃ fut, t.phase = .task e.id fut) →
      ∀ d ∈ s.chan.queue, d.payload.responds = true →
        d ∈ t.chan.queue ∨ ∃ fut, t.phase = .task d.id fut := by
    intro e q hq hq' he d hd hr
    rw [hq] at hd
    rcases List.mem_cons.mp hd with rfl | hd
    · exact .inr (he hr)
    · exact .inl (hq' ▸ hd)
  cases h with
  | startOk w es a c u hp | startErr w es e a c hp =>
    cases hp with
    | first hp | refresh i hp =>
      exact .keep rfl (by simp) (fun e he _ => .inl he) (hno hp (by simp))
  | takeTask es e q f hr hq hf =>
    obtain ⟨hp, rfl | rfl⟩ := hr.events <;>
      exact .keep rfl (by simp) (hhead hq (by simp [hq]) fun _ => ⟨_, rfl⟩) (hno hp (by simp))
  | takeStop es e q hr hq hf | restartPanic es e q hr hs hq hf =>
    have hn : e.payload.responds ≠ true := by simp [hf, Payload.responds]
    obtain ⟨hp, rfl | rfl⟩ := hr.events <;>
      exact .keep rfl (by simp) (hhead hq (by simp [hq]) fun h => absurd h hn) (hno hp (by simp))
  | takeRestart e q hp hs hq hf | ignoreRestart e q hp hs hq hf =>
    have hn : e.payload.responds ≠ true := by simp [hf, Payload.responds]
    exact .keep rfl (by simp) (hhead hq (by simp [hq]) fun h => absurd h hn) (hno hp (by simp))
  | mailboxEnd es hr =>
    obtain ⟨hp, rfl | rfl⟩ := hr.events <;>
      exact .keep rfl (by simp) (fun e he _ => .inl he) (hno hp (by simp))
  | taskPending i w sel fut fut' a c hp =>
    refine .keep rfl (by simp) (fun e he _ => .inl he) fun j f hpt => ?_
    rw [hp] at hpt
    cases hpt
    exact ⟨fut', rfl⟩
  | taskDone i w sel fut reply a c hp h =>
    exact .complete i fut reply hp (TaskFuture.poll_inr (congrArg Prod.fst (timeoutFut_ok h))) rfl
      (by simp [eq_comm]) rfl (by simp [Sys.complete])
  | taskOverran i w sel fut a c hp =>
    refine .cancel i fut hp rfl (by simp) rfl fun j f hpt => ?_
    simp only [Sys.overrun, record_phase] at hpt
    split at hpt <;> cases hpt
  | crash o ho hs =>
    unfold Sys.crash
    split
    · next i fut hp => exact .cancel i fut hp rfl (by simp) rfl (by simp)
    · next hp =>
      exact .keep rfl (by simp) (fun e he _ => .inl he) fun i fut hpt => absurd hpt (hp i fut)
  | release o hp => exact .release o hp rfl rfl (by simp)
  | dropContext hd =>
    exact .keep rfl (by simp) (fun e he _ => .inl he) fun i fut hp => ⟨fut, hp⟩
  | refreshStop w i hp | recreate w i hp | finishing w hp | stopping w hp | takeItem items x hp
  | streamEnd items hp | streamPending hp | itemPending x w fut f a c hp | itemDone x w fut r a c hp
  | notify o hp => exact .keep rfl (by simp) (fun e he _ => .inl he) (hno hp (by simp))

/-- A response channel is pending until its task completes, is dropped, or goes
with the receiver; it carries a response exactly when the task completed with
it. -/
structure Answered (s : Sys A) : Prop where
  settled : ∀ i, s.answers i ≠ .pending → s.phase.isEnded = true ∨
    (∃ e ∈ taken s.trace, e.id = i) ∧ ∀ fut, s.phase ≠ .task i fut
  sent : ∀ i r, s.answers i = .sent r → .completed i (some r) ∈ s.trace
  delivered : ∀ i r, .completed i (some r) ∈ s.trace → s.answers i = .sent r
  waiting : ∀ e ∈ accepted s.trace, e.payload.responds = true →
    s.answers e.id ≠ .pending ∨ e ∈ s.chan.queue ∨ ∃ fut, s.phase = .task e.id fut

theorem Answered.outside {s t : Sys A} {es : List (Event A)} (hs : s.Answered)
    (ho : s.Outside t es) (he : s.Effect t es) : t.Answered := by
  have htk : taken t.trace = taken s.trace := by
    rw [ho.trace, taken_append, taken_eq_nil (t := es) fun e hmem => ho.source _ hmem rfl,
      List.append_nil]
  have hcomp : ∀ i r, .completed i r ∈ t.trace ↔ .completed i r ∈ s.trace := by
    intro i r
    rw [ho.trace, List.mem_append, or_iff_left fun hmem => ho.source _ hmem rfl]
  refine ⟨?_, ?_, ?_, ?_⟩
  · rw [ho.answers, ho.phase, htk]
    exact hs.settled
  · simpa only [ho.answers, hcomp] using hs.sent
  · simpa only [ho.answers, hcomp] using hs.delivered
  · intro e hmem hr
    rw [ho.answers, ho.phase]
    rw [ho.trace, accepted_append, List.mem_append] at hmem
    have hq : ∀ d ∈ s.chan.queue, d ∈ t.chan.queue := by
      rcases he.accepted with ⟨hq, -⟩ | ⟨-, d, hq, -⟩ <;> rw [hq]
      · exact fun d hd => hd
      · exact fun d hd => List.mem_append_left _ hd
    rcases hmem with hmem | hmem
    · exact (hs.waiting e hmem hr).imp_right (·.imp_left (hq e))
    · rcases he.accepted with ⟨-, hac⟩ | ⟨-, d, hq', hac⟩
      · rw [hac] at hmem
        cases hmem
      · rw [hac, List.mem_singleton] at hmem
        rw [hq', hmem]
        exact .inr (.inl (by simp))

/-- A response that was sent stays, and so does every other resolution. -/
theorem Resolves.stable {s t : Sys A} {es : List (Event A)} (h : s.Resolves t es) (i : ℕ) :
    (∀ r, s.answers i = .sent r → t.answers i = .sent r) ∧
      (s.answers i ≠ .pending → t.answers i ≠ .pending) := by
  have hdrop : ∀ o : Oneshot (Reply A), (∀ r, o = .sent r → o.dropSender = .sent r) ∧
      (o ≠ .pending → o.dropSender ≠ .pending) := by
    intro o
    cases o <;> simp [Oneshot.dropSender]
  have hsend : ∀ (o : Oneshot (Reply A)) (q : Reply A), (∀ r, o = .sent r → o.send q = .sent r) ∧
      (o ≠ .pending → o.send q ≠ .pending) := by
    intro o q
    cases o <;> simp [Oneshot.send]
  cases h with
  | keep ha =>
    rw [ha]
    exact ⟨fun _ h => h, fun h => h⟩
  | complete j fut reply hp hr ha =>
    rw [ha]
    cases reply with
    | none => exact ⟨fun _ h => h, fun h => h⟩
    | some q =>
      rw [complete_some_answers]
      split
      · next hij => exact hij ▸ hsend (s.answers i) q
      · exact ⟨fun _ h => h, fun h => h⟩
  | cancel j fut hp ha =>
    rw [ha, dropAnswer_answers]
    split
    · next hij => exact hij ▸ hdrop (s.answers i)
    · exact ⟨fun _ h => h, fun h => h⟩
  | release o hp hp' ha =>
    rw [ha, release_answers]
    split
    · exact hdrop (s.answers i)
    · exact ⟨fun _ h => h, fun h => h⟩

namespace Answered

variable {E : Environment A} {s t : Sys A} {es : List (Event A)}

/-- The response of the task in progress is still open, ... -/
theorem inProgress (hs : s.Answered) {i : ℕ} {fut : TaskFuture A} (hp : s.phase = .task i fut) :
    s.answers i = .pending := by
  by_contra hne
  rcases hs.settled i hne with hend | ⟨-, hno⟩
  · rw [hp] at hend
    cases hend
  · exact hno fut hp

/-- ... and so are those of the payloads in the queue. -/
theorem queued (hs : s.Answered) (he : s.Enqueued) (hends : s.phase.isEnded = false)
    (hq : accepted s.trace = taken s.trace ++ s.chan.queue) {e : Envelope A}
    (hmem : e ∈ s.chan.queue) : s.answers e.id = .pending := by
  by_contra hne
  rcases hs.settled e.id hne with hend | ⟨⟨d, hd, hid⟩, -⟩
  · rw [hends] at hend
    cases hend
  · -- no two payloads have the same id
    have hnd := he.nodup
    rw [hq, List.map_append, List.nodup_append] at hnd
    exact hnd.2.2 _ (List.mem_map_of_mem hd) _ (List.mem_map_of_mem hmem) hid

theorem taken_loop (hl : s.LoopStep E t es) {e : Envelope A} (hmem : e ∈ taken s.trace) :
    e ∈ taken t.trace := by
  rw [hl.trace, taken_append]
  exact List.mem_append_left _ hmem

/-- A channel that a step resolves is the one of the task it ends. -/
theorem settled_loop (hs : s.Answered) (hh : s.Handling) (he : s.Enqueued)
    (hq : accepted s.trace = taken s.trace ++ s.chan.queue) (hl : s.LoopStep E t es) {i : ℕ}
    (hne : t.answers i ≠ .pending) : t.phase.isEnded = true ∨
      (∃ e ∈ taken t.trace, e.id = i) ∧ ∀ fut, t.phase ≠ .task i fut := by
  have hprog : ∀ i fut, s.phase = .task i fut → ∃ e ∈ taken t.trace, e.id = i := by
    intro i fut hp
    obtain ⟨e, f, pre, n, mid, a, c, hmem, hid, -⟩ := hh.progress i fut hp
    exact ⟨e, taken_loop hl (mem_taken.mpr hmem), hid⟩
  by_cases hsi : s.answers i = .pending
  · cases hl.resolves with
    | keep ha => exact absurd (ha ▸ hsi) hne
    | complete j fut reply hp hr ha hes hqt ht =>
      by_cases hij : i = j
      · exact .inr ⟨hij ▸ hprog j fut hp, fun f => ht i f⟩
      · refine absurd ?_ hne
        rw [ha]
        cases reply with
        | none => exact hsi
        | some q => rw [complete_some_answers, if_neg hij, hsi]
    | cancel j fut hp ha hes hqt ht =>
      by_cases hij : i = j
      · exact .inr ⟨hij ▸ hprog j fut hp, fun f => ht i f⟩
      · refine absurd ?_ hne
        rw [ha, dropAnswer_answers, if_neg hij, hsi]
    | release o hp hp' =>
      rw [hp']
      exact .inl rfl
  · have hends := hl.not_ended
    rcases hs.settled i hsi with hend | ⟨⟨e, hmem, hid⟩, -⟩
    · rw [hends] at hend
      cases hend
    · refine .inr ⟨⟨e, taken_loop hl hmem, hid⟩, fun fut hp => hsi ?_⟩
      -- what is in progress now was so before, or was in the queue
      rcases hl.task hp with ⟨d, q, f, pre, n, hqe, rfl, -⟩ | ⟨w, sel, fut₀, hps, -⟩
      · exact hs.queued he hends hq (by rw [hqe]; simp)
      · exact hs.inProgress hps

/-- A response that is sent is what the task has completed with. -/
theorem sent_loop (hs : s.Answered) (hl : s.LoopStep E t es) {i : ℕ} {r : Reply A}
    (hsent : t.answers i = .sent r) : .completed i (some r) ∈ t.trace := by
  rw [hl.trace, List.mem_append]
  cases hl.resolves with
  | keep ha => exact .inl (hs.sent i r (ha ▸ hsent))
  | complete j fut reply hp hr ha hes hqt ht =>
    rw [ha] at hsent
    cases reply with
    | none => exact .inl (hs.sent i r hsent)
    | some q =>
      rw [complete_some_answers] at hsent
      split at hsent
      · next hij =>
        rw [hs.inProgress hp] at hsent
        cases hsent
        exact .inr ((hes i r).mpr ⟨hij, rfl⟩)
      · exact .inl (hs.sent i r hsent)
  | cancel j fut hp ha hes hqt ht =>
    rw [ha, dropAnswer_answers] at hsent
    split at hsent
    · next hij => exact .inl (hs.sent i r (hij ▸ Oneshot.dropSender_eq_sent.mp hsent))
    · exact .inl (hs.sent i r hsent)
  | release o hp hp' ha =>
    rw [ha, release_answers] at hsent
    split at hsent
    · exact .inl (hs.sent i r (Oneshot.dropSender_eq_sent.mp hsent))
    · exact .inl (hs.sent i r hsent)

theorem delivered_loop (hs : s.Answered) (hl : s.LoopStep E t es) {i : ℕ} {r : Reply A}
    (hmem : .completed i (some r) ∈ t.trace) : t.answers i = .sent r := by
  rw [hl.trace, List.mem_append] at hmem
  have hres := hl.resolves
  rcases hmem with hmem | hmem
  · exact (hres.stable i).1 r (hs.delivered i r hmem)
  · cases hres with
    | keep ha hes => exact absurd hmem (hes i r)
    | cancel j fut hp ha hes => exact absurd hmem (hes i r)
    | release o hp hp' ha hes => exact absurd hmem (hes i r)
    | complete j fut reply hp hr ha hes =>
      obtain ⟨rfl, rfl⟩ := (hes i r).mp hmem
      rw [ha, complete_some_answers, if_pos rfl, hs.inProgress hp]
      rfl

/-- A step ends the task in progress with its response resolved. -/
theorem inProgress_loop (hl : s.LoopStep E t es) {i : ℕ} {fut : TaskFuture A}
    (hp : s.phase = .task i fut) (hresp : fut.responds = true) :
    t.answers i ≠ .pending ∨ ∃ fut', t.phase = .task i fut' := by
  cases hl.resolves with
  | keep ha hes hqt ht => exact .inr (ht i fut hp)
  | complete j fut' reply hp' hr ha =>
    rw [hp] at hp'
    cases hp'
    rw [hresp] at hr
    obtain ⟨q, rfl⟩ := Option.isSome_iff_exists.mp hr
    refine .inl ?_
    rw [ha, complete_some_answers, if_pos rfl]
    exact Oneshot.send_ne_pending _ _
  | cancel j fut' hp' ha =>
    rw [hp] at hp'
    cases hp'
    refine .inl ?_
    rw [ha, dropAnswer_answers, if_pos rfl]
    exact Oneshot.dropSender_ne_pending _
  | release o hp' =>
    rw [hp] at hp'
    cases hp'

theorem waiting_loop (hs : s.Answered) (hh : s.Handling) (hg : s.Logged) (he : s.Enqueued)
    (hl : s.LoopStep E t es) {e : Envelope A} (hmem : e ∈ accepted s.trace)
    (hresp : e.payload.responds = true) :
    t.answers e.id ≠ .pending ∨ e ∈ t.chan.queue ∨ ∃ fut, t.phase = .task e.id fut := by
  rcases hs.waiting e hmem hresp with hne | hqe | ⟨fut, hp⟩
  · exact .inl ((hl.resolves.stable e.id).2 hne)
  · cases hl.resolves with
    | keep ha hes hqt => exact .inr (hqt e hqe hresp)
    | complete j fut reply hp hr ha hes hqt => exact .inr (.inl (hqt ▸ hqe))
    | cancel j fut hp ha hes hqt => exact .inr (.inl (hqt ▸ hqe))
    | release o hp hp' ha =>
      refine .inl ?_
      rw [ha, release_answers, if_pos (List.mem_map_of_mem hqe)]
      exact Oneshot.dropSender_ne_pending _
  · obtain ⟨d, f, pre, n, mid, a, c, hd, hid, hf, -, hw⟩ := hh.progress e.id fut hp
    -- the task in progress is `e` itself, so it has a response channel
    have hde : d = e :=
      List.inj_on_of_nodup_map he.nodup (hg.ordered.subset (mem_taken.mpr hd)) hmem hid
    have hfr : fut.responds = true := by
      rw [hw.responds, f.future_responds, ← hf, hde, hresp]
    exact (inProgress_loop hl hp hfr).imp_right .inr

theorem loop (hs : s.Answered) (hh : s.Handling) (hg : s.Logged) (he : s.Enqueued)
    (hq : s.phase.isEnded = false → accepted s.trace = taken s.trace ++ s.chan.queue)
    (hl : s.LoopStep E t es) : t.Answered where
  settled _ hne := hs.settled_loop hh he (hq hl.not_ended) hl hne
  sent _ _ hsent := hs.sent_loop hl hsent
  delivered _ _ hmem := hs.delivered_loop hl hmem
  waiting e hmem hresp := by
    have hes : accepted es = [] := accepted_eq_nil fun e hmem => by
      simpa [Event.source] using hl.source _ hmem
    rw [hl.trace, accepted_append, hes, List.append_nil] at hmem
    exact hs.waiting_loop hh hg he hl hmem hresp

end Answered

/-! ### What the operations return -/

end Sys

/-- Only a future waits for room, and only one with a response channel for its response; one
with a response channel returns a response or an error, one without returns `Ok` or a refusal. -/
structure Op.Shaped (o : Op A) : Prop where
  room : o.state = .flushing → o.method.awaited = true
  waits : o.state = .awaiting → o.method.responds = true
  asks : o.method.responds = true → o.state ≠ .returned (.ok none)
  plain : o.method.responds = false → ∀ r, o.state = .returned r → r = .ok none ∨
    Sys.Unsent o.state

namespace Sys

theorem afterPush_shaped (o : Op A) : Op.Shaped { o with state := o.method.afterPush } := by
  rcases o with ⟨m, x, st⟩
  cases m <;> constructor <;> simp [Method.afterPush, Method.awaited, Method.responds, Unsent]

theorem Moves.shaped {s : Sys A} {i : ℕ} {o : Op A} {st : OpState A} (h : s.Moves i o st)
    (hs : o.Shaped) : Op.Shaped { o with state := st } := by
  cases h with
  | refused | dropped => constructor <;> simp [Unsent]
  | flushed hst hp =>
    unfold Method.afterFlush
    split
    · next hr => constructor <;> simp [hr]
    · next hr => constructor <;> simp [hr]
  | answered r hst ha => constructor <;> simp [hs.waits hst]
  | canceled hst ha => constructor <;> simp [hs.waits hst]

theorem shaped_step {E : Environment A} {s t : Sys A} {es : List (Event A)}
    (hs : ∀ (i : ℕ) (o : Op A), s.ops[i]? = some o → o.Shaped) (h : E.Step s t es) :
    ∀ (i : ℕ) (o : Op A), t.ops[i]? = some o → o.Shaped := by
  rcases h.outside with ⟨-, he⟩ | ⟨-, hl⟩
  · refine he.table hs (fun i o hst => ?_) (fun i o _ => afterPush_shaped o)
      fun i o st hi hm => hm.shaped (hs i o hi)
    rcases hst with hst | hst <;> constructor <;> simp [hst, Unsent]
  · exact hl.untouched.ops ▸ hs

/-- What operations return, in terms of their response channels and of the
mailbox. -/
structure Replies (s : Sys A) : Prop where
  replied : ∀ i r, .returned i (.ok (some r)) ∈ s.trace → s.answers i = .sent r
  after : ∀ i r, ∀ ev : Event A, ev.concluded? = some i →
    Precedes s.trace ev (.returned i (.ok (some r)))
  unsent : ∀ (i : ℕ) (o : Op A), s.ops[i]? = some o → Unsent o.state →
    ∀ e ∈ accepted s.trace, e.id ≠ i

theorem Moves.unsent {s : Sys A} {i : ℕ} {o : Op A} {st : OpState A} (h : s.Moves i o st)
    (hu : Unsent st) : o.state = .begun := by
  cases h with
  | refused hst => exact hst
  | flushed =>
    unfold Method.afterFlush at hu
    split at hu <;> simp [Unsent] at hu
  | answered | canceled | dropped => simp [Unsent] at hu

theorem Moves.replied {s : Sys A} {i : ℕ} {o : Op A} {st : OpState A} (h : s.Moves i o st)
    {r : Reply A} (hr : st = .returned (.ok (some r))) : s.answers i = .sent r := by
  cases h with
  | flushed =>
    unfold Method.afterFlush at hr
    split at hr <;> simp at hr
  | answered q hst ha =>
    cases hr
    exact ha
  | refused | canceled | dropped => simp at hr

theorem afterPush_not_unsent (m : Method A) : ¬ Unsent m.afterPush := by
  cases m <;> simp [Method.afterPush, Unsent]

theorem afterPush_not_replied (m : Method A) (r : Reply A) :
    m.afterPush ≠ .returned (.ok (some r)) := by
  cases m <;> simp [Method.afterPush]

theorem concluded_source {ev : Event A} {i : ℕ} (h : ev.concluded? = some i) :
    ev.source = .loop := by
  cases ev <;> simp [Event.concluded?] at h <;> rfl

theorem Replies.outside {s t : Sys A} {es : List (Event A)} (hs : s.Replies) (he : s.Enqueued)
    (ho : s.Outside t es) (hef : s.Effect t es) : t.Replies := by
  -- what an operation in the table becomes, and which response it returns
  have hreply : ∀ i r, .returned i (.ok (some r)) ∈ es → s.answers i = .sent r := by
    intro i r hmem
    cases hef with
    | idle es hw =>
      have := hw _ hmem
      simp [Event.source] at this
    | add o hst =>
      simp only [List.mem_cons, reduceCtorEq, false_or, mem_returnEvents] at hmem
      obtain ⟨q, hq, hmem⟩ := hmem
      cases hmem
      rcases hst with hst | hst <;> rw [hst] at hq <;> cases hq
    | accept j o hi hst =>
      simp only [List.mem_cons, reduceCtorEq, false_or, mem_returnEvents] at hmem
      obtain ⟨q, hq, hmem⟩ := hmem
      cases hmem
      exact absurd hq (afterPush_not_replied _ r)
    | move j o st hi hm =>
      obtain ⟨q, hq, hmem⟩ := mem_returnEvents.mp hmem
      cases hmem
      exact hm.replied hq
  have hac : accepted t.trace = accepted s.trace ++ accepted es := by
    rw [ho.trace, accepted_append]
  refine ⟨?_, ?_, ?_⟩
  · intro i r hmem
    rw [ho.answers]
    rw [ho.trace, List.mem_append] at hmem
    exact hmem.elim (hs.replied i r) (hreply i r)
  · intro i r ev hev
    have hn : ev ∉ es := fun hmem => ho.source ev hmem (concluded_source hev)
    rw [ho.trace]
    exact Precedes.append.mpr
      ⟨hs.after i r ev hev, fun hsub => hn (mem_of_pair hsub).2, fun _ => hn⟩
  · intro i o hi hu e hmem
    rw [hac, List.mem_append] at hmem
    cases hef with
    | idle es hw hops =>
      rw [hops] at hi
      refine hmem.elim (hs.unsent i o hi hu e) fun hmem => ?_
      have := hw _ (mem_accepted.mp hmem)
      simp [Event.source] at this
    | add o' hst hops =>
      have hno : e ∉ accepted (.began s.ops.length :: returnEvents s.ops.length o'.state) := by
        simp [mem_returnEvents]
      have hmem := hmem.resolve_right hno
      obtain ⟨d, hd, -⟩ := he.op e hmem
      have hlt : e.id < s.ops.length := (List.getElem?_eq_some_iff.mp hd).1
      rw [hops] at hi
      rintro rfl
      rw [List.getElem?_append_left hlt] at hi
      exact hs.unsent e.id o hi hu e hmem rfl
    | accept j o' hj hst hr hops =>
      rw [hops] at hi
      rcases Table.getElem?_set_cases hi with ⟨-, rfl⟩ | ⟨hne, hi⟩
      · exact absurd hu (afterPush_not_unsent _)
      · rcases hmem with hmem | hmem
        · exact hs.unsent i o hi hu e hmem
        · simp only [mem_accepted, List.mem_cons, Event.accepted.injEq, mem_returnEvents,
            reduceCtorEq, and_false, exists_false, or_false] at hmem
          rw [hmem]
          exact hne
    | move j o' st hj hm hops =>
      rw [hops] at hi
      have hmem := hmem.resolve_right (by simp [mem_returnEvents])
      rcases Table.getElem?_set_cases hi with ⟨rfl, rfl⟩ | ⟨hne, hi⟩
      · exact hs.unsent j o' hj (.inl (hm.unsent hu)) e hmem
      · exact hs.unsent i o hi hu e hmem

theorem Replies.loop {E : Environment A} {s t : Sys A} {es : List (Event A)} (hs : s.Replies)
    (ha : s.Answered) (hnd : (concluded t.trace).Nodup) (hl : s.LoopStep E t es) : t.Replies := by
  have hret : ∀ i r, .returned i r ∈ t.trace ↔ .returned i r ∈ s.trace := by
    intro i r
    rw [hl.trace, List.mem_append, or_iff_left fun hmem => by
      simpa [Event.source] using hl.source _ hmem]
  have hac : accepted t.trace = accepted s.trace := by
    have : accepted es = [] := accepted_eq_nil fun e hmem => by
      simpa [Event.source] using hl.source _ hmem
    rw [hl.trace, accepted_append, this, List.append_nil]
  refine ⟨?_, ?_, ?_⟩
  · intro i r hmem
    exact (hl.resolves.stable i).1 r (hs.replied i r ((hret i _).mp hmem))
  · intro i r ev hev
    rw [hl.trace]
    refine Precedes.append.mpr ⟨hs.after i r ev hev, fun hsub => ?_, fun hmem hes => ?_⟩
    · simpa [Event.source] using hl.source _ (mem_of_pair hsub).1
    · -- the task completed before its response was returned, it is not concluded again
      have hcm := ha.sent i r (hs.replied i r hmem)
      rw [hl.trace, concluded_append, List.nodup_append] at hnd
      exact hnd.2.2 i (List.mem_filterMap.mpr ⟨_, hcm, rfl⟩) i
        (List.mem_filterMap.mpr ⟨ev, hes, hev⟩) rfl
  · rw [hac, hl.untouched.ops]
    exact hs.unsent

end Sys

namespace Environment.Reachable

variable {E : Environment A} {a : A.State} {c : A.Ctx} {s : Sys A}

theorem handling (h : E.Reachable a c s) : s.Handling := by
  refine reachable_induction ⟨?_, ?_⟩ (fun _ _ _ _ _ hs hst => hs.step hst) h
  · intro i fut hp
    cases hp
  · intro i reply hmem
    cases hmem

theorem answered (h : E.Reachable a c s) : s.Answered := by
  refine reachable_induction (P := Sys.Answered) ⟨?_, ?_, ?_, ?_⟩ (fun s t es hr _ hs hst => ?_) h
  · intro i hne
    exact absurd rfl hne
  · intro i r hsent
    cases hsent
  · intro i r hmem
    cases hmem
  · intro e hmem
    cases hmem
  · rcases hst.outside with ⟨ho, he⟩ | ⟨-, hl⟩
    · exact hs.outside ho he
    · exact hs.loop hr.handling hr.logged hr.enqueued hr.queued hl

theorem shaped (h : E.Reachable a c s) : ∀ (i : ℕ) (o : Op A), s.ops[i]? = some o → o.Shaped :=
  reachable_induction (P := fun s => ∀ (i : ℕ) (o : Op A), s.ops[i]? = some o → o.Shaped)
    (fun i o hi => by simp [init] at hi) (fun _ _ _ _ _ hs hst => Sys.shaped_step hs hst) h

theorem replies (h : E.Reachable a c s) : s.Replies := by
  refine reachable_induction (P := Sys.Replies) ⟨?_, fun _ _ _ _ => Precedes.nil, ?_⟩
    (fun s t es hr ht hs hst => ?_) h
  · intro i r hmem
    cases hmem
  · intro i o hi
    cases hi
  · rcases hst.outside with ⟨ho, he⟩ | ⟨-, hl⟩
    · exact hs.outside hr.enqueued ho he
    · exact hs.loop hr.answered ht.concluded_nodup hl

/-- What completed is the task that its own operation pushed. -/
theorem ran (h : E.Reachable a c s) {i : ℕ} {o : Op A} (ho : s.ops[i]? = some o) {f : TaskFn A}
    (hf : o.method.payload = .task f) {reply : Option (Reply A)}
    (hc : .completed i reply ∈ s.trace) : Ran s.trace i f reply := by
  obtain ⟨e, f', htk, rfl, hf', hran⟩ := h.handling.done i reply hc
  obtain ⟨o', ho', hpay, -⟩ := h.enqueued.op e (h.logged.ordered.subset (mem_taken.mpr htk))
  rw [ho, Option.some_inj] at ho'
  rw [← ho', hf', hf, Payload.task.injEq] at hpay
  exact hpay ▸ hran

/-- An operation without a response channel that has returned pushed its payload and returned
`Ok`, or was refused. -/
theorem plain (h : E.Reachable a c s) {i : ℕ} {o : Op A} (ho : s.ops[i]? = some o)
    (hm : o.method.responds = false) {res : Except ActorError (Option (Reply A))}
    (hret : .returned i res ∈ s.trace) :
    res = .ok none ∧ (∃ e ∈ accepted s.trace, e.id = i) ∨
      (∃ err, res = .error err) ∧ ∀ e ∈ accepted s.trace, e.id ≠ i := by
  obtain ⟨o', ho', hst⟩ := h.enqueued.returned i res hret
  rw [ho, Option.some_inj] at ho'
  subst ho'
  by_cases hu : Sys.Unsent o.state
  · refine .inr ⟨?_, h.replies.unsent i o ho hu⟩
    rcases hu with hu | hu | hu <;> rw [hst] at hu <;> cases hu <;> exact ⟨_, rfl⟩
  · refine .inl ⟨((h.shaped i o ho).plain hm res hst).resolve_right hu, ?_⟩
    exact ((h.pushed i o ho).resolve_left hu).resolve_left (by rw [hst]; nofun)

end Environment.Reachable

/-! ### The contract -/

/-- What a request may rely on. -/
structure RequestContract (s : Sys A) : Prop where
  /-- A request that returns `Ok` returns a response, ... -/
  some_response : ∀ (i : ℕ) (o : Op A), s.ops[i]? = some o → o.method.responds = true →
    o.state ≠ .returned (.ok none)
  /-- ... the one its own message's handler completed with, in its one run, after
  everything accepted before the request was concluded. -/
  handled : ∀ i r, .returned i (.ok (some r)) ∈ s.trace →
    ∃ e ∈ taken s.trace, e.id = i ∧ ∃ o f, s.ops[i]? = some o ∧ o.method.payload = .task f ∧
      Ran s.trace i f (some r) ∧ (begun s.trace).count i = 1 ∧ (completed s.trace).count i = 1 ∧
      ∀ e', [e', e] <+ accepted s.trace → ∃ ev : Event A, ev.concluded? = some e'.id ∧
        [ev, .returned i (.ok (some r))] <+ s.trace
  /-- A refused request never entered the mailbox and never runs. -/
  refused : ∀ i err, .returned i (.error err) ∈ s.trace →
    err = .asyncSendError ∨ err = .alreadyStopped →
    (∀ e ∈ accepted s.trace, e.id ≠ i) ∧ i ∉ begun s.trace
  /-- A task either completes or overruns, and one that overruns answers nobody. -/
  exclusive : ∀ i reply, .completed i reply ∈ s.trace → .overran i ∉ s.trace
  overran : ∀ i r, .overran i ∈ s.trace → s.answers i ≠ .sent r ∧
    .returned i (.ok (some r)) ∉ s.trace
  /-- With the receiver gone no accepted request is left unanswered. -/
  answered : s.phase.isEnded = true → ∀ e ∈ accepted s.trace, e.payload.responds = true →
    s.answers e.id ≠ .pending

/-- **Request/response contract**, for all interleavings of both loops. -/
theorem request_contract {E : Environment A} {a : A.State} {c : A.Ctx} {s : Sys A}
    (h : E.Reachable a c s) : RequestContract s := by
  have hexcl : ∀ i reply, .completed i reply ∈ s.trace → .overran i ∉ s.trace := by
    intro i reply hc ho
    have := h.concluded_unique hc ho rfl rfl
    cases this
  refine ⟨fun i o hi => (h.shaped i o hi).asks, ?_, ?_, hexcl, ?_, ?_⟩
  · intro i r hret
    have hcm := h.answered.sent i r (h.replies.replied i r hret)
    obtain ⟨e, f, htk, hid, hf, hran⟩ := h.handling.done i (some r) hcm
    have hacc := h.logged.ordered.subset (mem_taken.mpr htk)
    obtain ⟨o, ho, hpay, -⟩ := h.enqueued.op e hacc
    refine ⟨e, mem_taken.mpr htk, hid, o, f, hid ▸ ho, hpay ▸ hf, hran, ?_, ?_, ?_⟩
    · rw [h.begun]
      refine List.count_eq_one_of_mem (h.taken_nodup.sublist (tasks_sublist _))
        (List.mem_filterMap.mpr ⟨e, mem_taken.mpr htk, ?_⟩)
      rw [Envelope.task?, hf]
      exact congrArg some hid
    · exact List.count_eq_one_of_mem (h.concluded_nodup.sublist (completed_sublist _))
        (List.mem_filterMap.mpr ⟨_, hcm, rfl⟩)
    · intro e' hsub
      obtain ⟨ev, hev, hpair⟩ := h.concluded_before hsub hcm (congrArg some hid.symm)
      exact ⟨ev, hev, (h.replies.after i r _ rfl).pair_trans hpair hret⟩
  · intro i err hret herr
    obtain ⟨o, hi, hst⟩ := h.enqueued.returned i _ hret
    have hno : ∀ e ∈ accepted s.trace, e.id ≠ i := by
      refine h.replies.unsent i o hi ?_
      rcases herr with rfl | rfl
      · exact .inr (.inl hst)
      · exact .inr (.inr hst)
    refine ⟨hno, fun hmem => ?_⟩
    rw [h.begun, List.mem_filterMap] at hmem
    obtain ⟨e, he, hi⟩ := hmem
    unfold Envelope.task? at hi
    split at hi
    · exact hno e (h.logged.ordered.subset he) (Option.some_inj.mp hi)
    · cases hi
  · intro i r hov
    have hns : s.answers i ≠ .sent r := fun hsent => hexcl i _ (h.answered.sent i r hsent) hov
    exact ⟨hns, fun hret => hns (h.replies.replied i r hret)⟩
  · intro hend e hmem hresp
    rcases h.answered.waiting e hmem hresp with hne | hqe | ⟨fut, hp⟩
    · exact hne
    · rw [h.logged.dropped (by rw [h.receiverHeld, hend]; rfl)] at hqe
      cases hqe
    · rw [hp] at hend
      cases hend

/-- A call is answered with the sum. -/
theorem request_contract_of_call :
    ∃ s, Tally.plain.system.run (Tally.spawn Tally.plain)
        [.loop (.hook true), .op (.begin (.call (5 : ℕ)) 0), .op (.push 0), .loop .recv,
          .loop (.pollTask false ⟨false, false⟩), .loop (.pollTask true ⟨false, false⟩),
          .op (.respond 0)] = some s ∧
      s.trace[8]? = some (.returned 0 (.ok (some (.response (5 : ℕ))))) ∧ RequestContract s :=
  ⟨_, rfl, rfl, request_contract (Tally.reachable (E := Tally.plain)
    [.loop (.hook true), .op (.begin (.call (5 : ℕ)) 0), .op (.push 0), .loop .recv,
      .loop (.pollTask false ⟨false, false⟩), .loop (.pollTask true ⟨false, false⟩),
      .op (.respond 0)] rfl)⟩

end Hannibal
