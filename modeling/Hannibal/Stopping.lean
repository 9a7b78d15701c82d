/-
Stopping a subscriber.

A publish returns when the topic is in the broker's mailbox, a `Stop` goes to the
subscriber's own, so a `Stop` that is pushed after the publish has returned may
still stand in front of the topic (`not_topic_before_stop`).

* `topic_before_stop` — in the runs in which no `Stop` is pushed to the subscriber
  before the topic is, it handles the topic before its loop ends;
* `Reachable.delivered` — an answered ping of the broker is enough for that.
-/
import Hannibal.Announcement
import Hannibal.Barriers

open scoped List

namespace Hannibal

/-! ### The end of one actor's loop -/

section Actor

variable {A : Actor}

namespace Sys

/-- The loop has come to a `Stop` or to the end of its mailbox. -/
def Closed (s : Sys A) : Prop := .mailboxEnd ∈ s.trace ∨ ∃ e ∈ taken s.trace, e.payload = .stop

theorem LoopStep.closes {E : Environment A} {s t : Sys A} {es : List (Event A)}
    (h : s.LoopStep E t es) (hc : .mailboxEnd ∈ es ∨ ∃ e ∈ taken es, e.payload = .stop) :
    s.phase = .receiving ∧ (s.chan.queue = [] ∧ s.chan.senders = 0 ∨
      ∃ e q, s.chan.queue = e :: q ∧ e.payload = .stop) := by
  cases h with
  | takeStop es e q hr hq hf => exact ⟨hr.events.1, .inr ⟨e, q, hq, hf⟩⟩
  | mailboxEnd es hr hq hs => exact ⟨hr.events.1, .inl ⟨hq, hs⟩⟩
  | takeTask es e q f hr hq hf | restartPanic es e q hr hs hq hf =>
    obtain ⟨-, rfl | rfl⟩ := hr.events <;> simp [taken, List.filterMap_cons, Event.taken?, hf] at hc
  | takeRestart e q hp hs hq hf | ignoreRestart e q hp hs hq hf =>
    simp [taken, List.filterMap_cons, Event.taken?, hf] at hc
  | startOk w es a c u hp => cases hp <;> simp [taken, Event.taken?] at hc
  | _ => simp [taken, Event.taken?] at hc

end Sys

namespace Environment.Reachable

variable {E : Environment A} {a : A.State} {c : A.Ctx} {s t : Sys A} {es : List (Event A)}

/-- Where the loop closes, everything that stands in front of the `Stop` has been taken and
concluded, or everything at all has and no sender is left. -/
theorem closing (h : E.Reachable a c s) (hst : E.Step s t es) (hn : ¬ s.Closed) (hc : t.Closed) :
    ((accepted s.trace = taken s.trace ∧ s.chan.senders = 0) ∨
      ∃ e q, accepted s.trace = taken s.trace ++ e :: q ∧ e.payload = .stop) ∧
      (taken s.trace).filterMap Envelope.work? = concluded s.trace := by
  have hnew : .mailboxEnd ∈ es ∨ ∃ e ∈ taken es, e.payload = .stop := by
    unfold Sys.Closed at hn hc
    rw [hst.trace, taken_append] at hc
    rcases hc with hc | ⟨e, he, hp⟩
    · exact .inl ((List.mem_append.mp hc).resolve_left fun hm => hn (.inl hm))
    · exact .inr ⟨e, (List.mem_append.mp he).resolve_left fun hm => hn (.inr ⟨e, hm, hp⟩), hp⟩
  rcases hst.outside with ⟨ho, -⟩ | ⟨-, hl⟩
  · rcases hnew with hm | ⟨e, he, -⟩
    · exact absurd rfl (ho.source _ hm)
    · exact absurd rfl (ho.source _ (mem_taken.mp he))
  · obtain ⟨hp, hq⟩ := hl.closes hnew
    have hacc := h.queued (by rw [hp]; rfl)
    have hwork := h.worked.exact (by rw [hp]; rfl)
    rw [show s.phase.current = [] by rw [hp]; rfl, List.append_nil] at hwork
    refine ⟨?_, hwork⟩
    rcases hq with ⟨hq, hs⟩ | ⟨e, q, hq, hf⟩
    · exact .inl ⟨by rw [hacc, hq, List.append_nil], hs⟩
    · exact .inr ⟨e, q, by rw [hacc, hq], hf⟩

/-- A task that no `Stop` stands in front of is concluded when the loop closes. -/
theorem concluded_of_closing (h : E.Reachable a c s) (hst : E.Step s t es) (hn : ¬ s.Closed)
    (hc : t.Closed) {e : Envelope A} {f : TaskFn A} (he : e ∈ accepted s.trace)
    (hf : e.payload = .task f)
    (hstop : ∀ e' ∈ accepted s.trace, e'.payload = .stop → [e, e'] <+ accepted s.trace) :
    e.id ∈ concluded s.trace := by
  obtain ⟨hacc, hwork⟩ := h.closing hst hn hc
  have htk : e ∈ taken s.trace := by
    rcases hacc with ⟨hacc, -⟩ | ⟨e', q, hacc, hp⟩
    · exact hacc ▸ he
    · have hpair := hstop e' (by simp [hacc]) hp
      have hnodup : (accepted s.trace).Nodup := h.enqueued.nodup.of_map _
      rw [hacc, List.mem_append, List.mem_cons] at he
      rcases he with he | rfl | he
      · exact he
      · rw [hf] at hp
        cases hp
      · -- behind the `Stop` it could not stand in front of it
        refine absurd hpair (not_pair_of_nodup hnodup ?_)
        rw [hacc]
        refine List.Sublist.trans ?_ (List.sublist_append_right _ _)
        exact (List.singleton_sublist.mpr he).cons_cons e'
  rw [← hwork]
  exact List.mem_filterMap.mpr ⟨e, htk, by rw [Envelope.work?, hf]⟩

/-- A concluded task completed or overran. -/
theorem completed_or_overran (h : E.Reachable a c s) {e : Envelope A} {f : TaskFn A}
    (he : e ∈ accepted s.trace) (hf : e.payload = .task f) (hc : e.id ∈ concluded s.trace) :
    (∃ reply, .completed e.id reply ∈ s.trace) ∨ .overran e.id ∈ s.trace := by
  obtain ⟨ev, hev, hi⟩ := List.mem_filterMap.mp hc
  cases ev with
  | completed i reply =>
    obtain rfl := Option.some_inj.mp hi
    exact .inl ⟨reply, hev⟩
  | overran i =>
    obtain rfl := Option.some_inj.mp hi
    exact .inr hev
  | refreshed i =>
    obtain rfl := Option.some_inj.mp hi
    exact absurd hev (h.not_refreshed he hf)
  | _ => simp [Event.concluded?] at hi

end Environment.Reachable

/-- Pushing is a step of an operation of the table. -/
theorem Environment.step_push {E : Environment A} {s t : Sys A} {i : ℕ}
    (h : E.step s (.op (.push i)) = some t) : ∃ o, s.ops[i]? = some o := by
  cases Sys.opStep_labels (show s.opStep (.push i) = some t from h) with
  | push i o ho => exact ⟨o, ho⟩
  | move l k o st hl => simp at hl

/-- A `Stop` enters the mailbox in the push of a `stop`. -/
theorem Environment.Reachable.step_stop {E : Environment A} {a : A.State} {c : A.Ctx}
    {s t : Sys A} {l : Label A} (h : E.Reachable a c s) (hst : E.step s l = some t)
    {e : Envelope A} (he : e ∈ accepted t.trace) (hp : e.payload = .stop)
    (hn : e ∉ accepted s.trace) :
    ∃ o, l = .op (.push e.id) ∧ s.ops[e.id]? = some o ∧ o.method = .stop := by
  rcases Environment.step_accepted hst he with hold | ⟨rfl, -⟩
  · exact absurd hold hn
  · obtain ⟨o, ho⟩ := Environment.step_push hst
    obtain ⟨o', ho', hm'⟩ := Environment.step_op hst ho
    obtain ⟨o'', ho'', hpay, -⟩ := (h.next hst).enqueued.op e he
    rw [ho', Option.some_inj] at ho''
    subst ho''
    refine ⟨o, rfl, ho, ?_⟩
    rw [hp, hm'] at hpay
    cases hm : o.method <;> rw [hm] at hpay <;> first | rfl | cases hpay

namespace Sys

variable {E : Environment A} {a : A.State} {c : A.Ctx} {s t : Sys A} {e : Envelope A}

/-- The loop has not closed and no `Stop` was accepted. -/
def Open (s : Sys A) : Prop := ¬ s.Closed ∧ ∀ e ∈ accepted s.trace, e.payload ≠ .stop

/-- `e` stands in front of every `Stop`, and is concluded if the loop has closed. -/
structure Leading (s : Sys A) (e : Envelope A) : Prop where
  accepted : e ∈ accepted s.trace
  first : ∀ e' ∈ Hannibal.accepted s.trace, e'.payload = .stop →
    [e, e'] <+ Hannibal.accepted s.trace
  concluded : s.Closed → e.id ∈ concluded s.trace

theorem Open.leading (h : s.Open) (he : e ∈ Hannibal.accepted s.trace) : s.Leading e :=
  ⟨he, fun e' he' hp => absurd hp (h.2 e' he'), fun hc => absurd hc h.1⟩

theorem Leading.step {f : TaskFn A} (h : s.Leading e) (hr : E.Reachable a c s)
    {es : List (Event A)} (hst : E.Step s t es) (hf : e.payload = .task f) : t.Leading e := by
  have hacc : Hannibal.accepted t.trace = Hannibal.accepted s.trace ++ Hannibal.accepted es := by
    rw [hst.trace, accepted_append]
  have hold : Hannibal.concluded s.trace ⊆ Hannibal.concluded t.trace := by
    rw [hst.trace, concluded_append]
    exact List.subset_append_left _ _
  refine ⟨hacc ▸ List.mem_append_left _ h.accepted, fun e' he' hp => ?_, fun hc => ?_⟩
  · rw [hacc] at he' ⊢
    rcases List.mem_append.mp he' with he' | he'
    · exact (h.first e' he' hp).trans (List.sublist_append_left _ _)
    · exact pair_sublist_append.mpr (.inr (.inr ⟨h.accepted, he'⟩))
  · by_cases hs : s.Closed
    · exact hold (h.concluded hs)
    · exact hold (hr.concluded_of_closing hst hs hc h.accepted hf h.first)

/-- While a sender is left and no `Stop` is pushed, the loop does not close. -/
theorem Open.step (h : s.Open) (hr : E.Reachable a c s) {l : Label A} (hst : E.step s l = some t)
    (hl : ∀ j o, l = .op (.push j) → s.ops[j]? = some o → o.method ≠ .stop)
    (hs : s.chan.senders ≠ 0) : t.Open := by
  refine ⟨fun hc => ?_, fun e he hp => ?_⟩
  · obtain ⟨es, hes⟩ := Environment.step_cases hst
    rcases (hr.closing hes h.1 hc).1 with ⟨-, hzero⟩ | ⟨e, q, hacc, hp⟩
    · exact hs hzero
    · exact h.2 e (by simp [hacc]) hp
  · obtain ⟨o, rfl, ho, hm⟩ := hr.step_stop hst he hp fun hold => h.2 e hold hp
    exact hl e.id o rfl ho hm

end Sys

end Actor

/-! ### Numbers of publishes -/

/-- Two places at which a list has an entry with `p` are the same if equally many come
before them. -/
theorem split_at_count {α : Type*} {p : α → Bool} {l l' u u' : List α} {a a' : α}
    (h : l ++ a :: u = l' ++ a' :: u') (ha : p a = true) (ha' : p a' = true)
    (hc : (l.filter p).length = (l'.filter p).length) : a = a' := by
  rcases List.append_eq_append_iff.mp h with ⟨w, rfl, hw⟩ | ⟨w, rfl, hw⟩
  · rcases w with _ | ⟨b, w⟩
    · exact (List.cons.inj hw).1
    · obtain ⟨rfl, -⟩ := List.cons.inj hw
      simp [ha] at hc
  · rcases w with _ | ⟨b, w⟩
    · exact (List.cons.inj hw).1.symm
    · obtain ⟨rfl, -⟩ := List.cons.inj hw
      simp [ha'] at hc

namespace Broker

open Spawned (handleAt handleAt_eq_some)

variable {T M : Type} {S : Program T} {K : Topic S M} {prunes : Bool} {r q : Broker S M}

/-- A send carries the topic of the publish whose number it has. -/
def Numbered (r : Broker S M) : Prop :=
  ∀ n i msg j, .sent n i msg j ∈ r.trace → ∃ l u, takenMsgs r.trace = l ++ .publish msg :: u ∧
    n = (l.filter BrokerMessage.isPublish).length + 1

theorem Numbered.step (h : r.Numbered) (hround : r.Rounds) {l : BrokerLabel S M}
    {es : List (BrokerEvent M)} (hs : BrokerStep K prunes r l es q) : q.Numbered := by
  have ht := hs.trace
  intro n i msg j hm
  rw [ht, List.mem_append] at hm
  have hr : ∃ l u, takenMsgs r.trace = l ++ .publish msg :: u ∧
      n = (l.filter BrokerMessage.isPublish).length + 1 := by
    rcases hm with hm | hm
    · exact h n i msg j hm
    · cases hs with
      | send p s todo x t hp hx htx =>
        cases List.mem_singleton.mp hm
        obtain ⟨xs, msg, ys, hr, hro⟩ := hround.current (by rw [hp]; rfl)
        obtain rfl := hro.topic p.msg (by rw [hp]; rfl)
        refine ⟨takenMsgs xs, takenMsgs ys, ?_, ?_⟩
        · rw [hr, takenMsgs_append]
          rfl
        · rw [published_eq, hr, hro.published]
          rfl
      | _ => simp at hm
  obtain ⟨l', u, htaken, hn⟩ := hr
  refine ⟨l', u ++ takenMsgs es, ?_, hn⟩
  rw [ht, takenMsgs_append, htaken, List.append_assoc, List.cons_append]

/-! ### The subscriber and its mailbox -/

/-- What one step of the broker or of its surroundings does to an actor. -/
theorem BrokerStep.actor_step {l : BrokerLabel S M} {es : List (BrokerEvent M)}
    (hs : BrokerStep K prunes r l es q) {i : ℕ} {x : Spawned S} (hx : r.actors[i]? = some x) :
    q.actors[i]? = some x ∨ ∃ k s, x.env.step x.sys k = some s ∧
      q.actors[i]? = some { x with sys := s } ∧ ∀ j, k = .op (.push j) → l = .actor i x.type k := by
  have hset : ∀ (i' : ℕ) (x' : Spawned S) (k : Label (S.actor x'.type))
      (s : Sys (S.actor x'.type)), r.actors[i']? = some x' → x'.env.step x'.sys k = some s →
      (∀ j, k = .op (.push j) → l = .actor i' x'.type k) →
      q.actors = r.actors.set i' { x' with sys := s } →
      q.actors[i]? = some x ∨ ∃ k s, x.env.step x.sys k = some s ∧
        q.actors[i]? = some { x with sys := s } ∧
          ∀ j, k = .op (.push j) → l = .actor i x.type k := by
    intro i' x' k s hx' hst hk hq
    by_cases hi : i' = i
    · subst hi
      rw [hx, Option.some_inj] at hx'
      subst hx'
      refine .inr ⟨k, s, hst, ?_, hk⟩
      rw [hq, List.getElem?_set_self (List.getElem?_eq_some_iff.mp hx).1]
    · left
      rw [hq, List.getElem?_set_ne hi, hx]
  have hhandle : ∀ (i' : ℕ) (k : HandleLabel), q.actors = r.actors.modify i' (·.onHandle k) →
      q.actors[i]? = some x ∨ ∃ k s, x.env.step x.sys k = some s ∧
        q.actors[i]? = some { x with sys := s } ∧
          ∀ j, k = .op (.push j) → l = .actor i x.type k := by
    intro i' k hq
    rw [hq, List.getElem?_modify, hx]
    by_cases hi : i' = i
    · simp only [if_pos hi, Option.map_eq_map, Option.map_some]
      unfold Spawned.onHandle
      cases hst : x.sys.handleStep k with
      | none => exact .inl rfl
      | some s => exact .inr ⟨.handle k, s, hst, rfl, fun j hj => by cases hj⟩
    · left
      simp [hi]
  cases hs with
  | spawn t E a c =>
    left
    show (r.actors ++ [_])[i]? = _
    rw [List.getElem?_append_left (List.getElem?_eq_some_iff.mp hx).1, hx]
  | act i' x' k s hx' hst ha => exact hset i' x' k s hx' hst (fun _ _ => rfl) rfl
  | upgrade p s todo hp hu => exact hhandle s.id _ rfl
  | send p s todo x' t hp hx' ht => exact hset s.id x' _ t hx' ht (fun j hj => by cases hj) rfl
  | drop s todo hp | unhand s todo hp => exact hhandle s.id _ rfl
  | _ => exact .inl hx

/-- The topic of the publish `n` has entered the mailbox of the actor `i`. -/
def Delivered (n i : ℕ) (r : Broker S M) : Prop :=
  ∃ x msg j, r.actors[i]? = some x ∧ .sent n i msg j ∈ r.trace ∧
    ∃ e ∈ accepted x.sys.trace, e.id = j

/-- The step pushes a `Stop` to the actor `i`. -/
def Stops (i : ℕ) (r : Broker S M) (l : BrokerLabel S M) : Prop :=
  ∃ x j o, r.actors[i]? = some x ∧ l = .actor i x.type (.op (.push j)) ∧
    x.sys.ops[j]? = some o ∧ o.method = .stop

/-- Till the topic of the publish `n` is in the mailbox of the actor `i`, no `Stop` is pushed
there and somebody holds a sending handle. -/
structure Heeds (n i : ℕ) (r : Broker S M) (l : BrokerLabel S M) (_ : Broker S M) : Prop where
  stop : r.Stops i l → r.Delivered n i
  held : r.Delivered n i ∨ r.upgrades i = true

/-- The actor `i` is open, or the topic stands in front of every `Stop`. -/
def Stands (n i : ℕ) (r : Broker S M) : Prop :=
  ∃ x, r.actors[i]? = some x ∧
    (x.sys.Open ∨ ∃ msg e, .sent n i msg e.id ∈ r.trace ∧ x.sys.Leading e)

/-- What was sent is a task of the subscriber. -/
theorem Spaced.task (h : r.Spaced K) (ho : r.Owning) {n i : ℕ} {msg : M} {x : Spawned S}
    (hx : r.actors[i]? = some x) {e : Envelope (S.actor x.type)} (hs : .sent n i msg e.id ∈ r.trace)
    (he : e ∈ accepted x.sys.trace) : e.payload = .task (.send (K.message x.type msg)) := by
  obtain ⟨y, hy, hasked⟩ := h.asked n i msg e.id hs
  rw [hx, Option.some_inj] at hy
  subst hy
  exact (hasked.carries (ho.alive i x hx)).payload e he rfl

theorem senders_of_upgrades {A : Actor} {E : Environment A} {a : A.State} {c : A.Ctx} {s : Sys A}
    (h : E.Reachable a c s) (hu : (s.arcs.upgrade .weakSender).isSome = true) :
    s.chan.senders ≠ 0 := by
  simp only [Arcs.upgrade, Option.isSome_ite] at hu
  rw [h.counted.senders, Ne, Nat.add_eq_zero_iff, Arcs.closures_eq_zero]
  omega

theorem Stands.step {n i : ℕ} (h : r.Stands n i) (ho : r.Owning) (hsp : r.Spaced K)
    {l : BrokerLabel S M} {es : List (BrokerEvent M)} (hs : BrokerStep K prunes r l es q)
    (hc : Heeds n i r l q) : q.Stands n i := by
  obtain ⟨x, hx, hstand⟩ := h
  have htr : ∀ {msg j}, .sent n i msg j ∈ r.trace → BrokerEvent.sent n i msg j ∈ q.trace := by
    intro msg j hm
    rw [hs.trace]
    exact List.mem_append_left _ hm
  obtain ⟨a, c, hreach⟩ := ho.alive i x hx
  rcases hs.actor_step hx with hq | ⟨k, t, hst, hq, hk⟩
  · exact ⟨x, hq, hstand.imp_right fun ⟨msg, e, hm, he⟩ => ⟨msg, e, htr hm, he⟩⟩
  obtain ⟨us, hes⟩ := Environment.step_cases hst
  refine ⟨_, hq, ?_⟩
  -- the topic is in the mailbox, or no `Stop` is pushed and somebody holds a sender
  by_cases hdel : r.Delivered n i
  · have hlead : ∃ msg e, .sent n i msg e.id ∈ r.trace ∧ x.sys.Leading e := by
      rcases hstand with hopen | hlead
      · obtain ⟨y, msg, j, hy, hm, e, he, rfl⟩ := hdel
        rw [hx, Option.some_inj] at hy
        subst hy
        exact ⟨msg, e, hm, hopen.leading he⟩
      · exact hlead
    obtain ⟨msg, e, hm, he⟩ := hlead
    exact .inr ⟨msg, e, htr hm, he.step hreach hes (hsp.task ho hx hm he.accepted)⟩
  · rcases hstand with hopen | ⟨msg, e, hm, he⟩
    · refine .inl (hopen.step hreach hst (fun j o hj hoj hmeth => hdel (hc.stop ?_)) ?_)
      · exact ⟨x, j, o, hx, hj ▸ hk j hj, hoj, hmeth⟩
      · have hu := hc.held.resolve_left hdel
        simp only [upgrades, hx] at hu
        exact senders_of_upgrades hreach hu
    · exact absurd ⟨x, msg, e.id, hx, hm, e, he.accepted, rfl⟩ hdel

theorem Delivered.step {n i : ℕ} (h : r.Delivered n i) (ho : r.Owning) {l : BrokerLabel S M}
    {es : List (BrokerEvent M)} (hs : BrokerStep K prunes r l es q) : q.Delivered n i := by
  obtain ⟨x, msg, j, hx, hm, e, he, hid⟩ := h
  obtain ⟨y, hy, hxy⟩ := hs.later.actor i x hx
  obtain ⟨t, rfl, htr⟩ := hxy.trace (ho.alive i x hx)
  refine ⟨_, msg, j, hy, ?_, e, mem_accepted.mpr (htr.subset (mem_accepted.mp he)), hid⟩
  rw [hs.trace]
  exact List.mem_append_left _ hm

/-- When the topic is in the mailbox, the subscriber may be stopped and let go. -/
theorem Delivered.along [DecidableEq T] {n i : ℕ} {ls : List (BrokerLabel S M)}
    (h : r.Delivered n i) (hr : Reachable K prunes r) :
    (system K prunes).Along (Heeds n i) r ls := by
  induction ls generalizing r with
  | nil => exact trivial
  | cons l ls ih =>
    refine Machine.along_cons.mpr fun q hst => ⟨⟨fun _ => h, .inl h⟩, ?_⟩
    obtain ⟨es, hs⟩ := step_cases hst
    exact ih (h.step hr.owning hs) (hr.trans (.single hst))

namespace Reachable

variable [DecidableEq T]

theorem numbered (h : Reachable K prunes r) : r.Numbered :=
  (h.induction (P := fun r => r.Rounds ∧ r.Numbered) ⟨.init S M, fun _ _ _ _ hm => by cases hm⟩
    fun _ _ _ _ ho hl hr hs => ⟨hr.1.step ho hl hs, hr.2.step hr.1 hs⟩).2.2.2

/-- When a ping behind the publish has been answered, the topic is in the mailbox. -/
theorem delivered (h : Reachable K prunes r) {l ws : List (BrokerMessage M)} {msg : M}
    (htaken : takenMsgs r.trace = l ++ .publish msg :: ws) (hws : ws ≠ []) {i : ℕ}
    (hsub : subscribed i l = true) {x : Spawned S} (hx : r.actors[i]? = some x)
    (hup : x.sys.arcs.upgrade .weakSender ≠ none) (hp : x.sys.phase.isEnded = false) :
    r.Delivered ((l.filter BrokerMessage.isPublish).length + 1) i := by
  obtain ⟨j, hj, res, hres⟩ := h.sent_of_taken htaken hws hsub hx hup
  obtain ⟨y, hy, hh⟩ := h.settled.handed _ _ _ _ hj
  rw [hx, Option.some_inj] at hy
  subst hy
  obtain ⟨a, c, hreach⟩ := h.owning.alive i x hx
  refine ⟨x, msg, j, hx, hj, ?_⟩
  rcases hh with ⟨o, ho, hst⟩ | he | hr
  · obtain ⟨o', ho', hret⟩ := hreach.enqueued.returned j res hres
    rw [ho, Option.some_inj] at ho'
    rw [ho', hret] at hst
    simp at hst
  · exact he
  · rw [hreach.receiverHeld, hp] at hr
    cases hr

/-- The sends of the publish that was posted at some place carry its topic. -/
theorem sent_topic (h : Reachable K prunes r) {l ws : List (BrokerMessage M)} {msg msg' : M}
    (hposted : postedMsgs r.trace = l ++ .publish msg :: ws) {i j : ℕ}
    (hs : .sent ((l.filter BrokerMessage.isPublish).length + 1) i msg' j ∈ r.trace) :
    msg' = msg := by
  obtain ⟨l', u, htaken, hn⟩ := h.numbered _ i msg' j hs
  obtain ⟨v, hv⟩ := h.fifo.order
  rw [htaken, hposted, List.append_assoc, List.cons_append] at hv
  have he := split_at_count (p := BrokerMessage.isPublish) hv rfl rfl (by omega)
  exact BrokerMessage.publish.inj he

end Reachable

end Broker

/-- **A topic reaches a subscriber that is stopped afterwards**, in the runs in which no `Stop`
is pushed to it before the topic.  In `r` the publish has returned, and the subscriber runs and
was sent no `Stop`; when its loop has come to a `Stop` or to the end of its mailbox, it has
handled the topic. -/
theorem topic_before_stop {T M : Type} [DecidableEq T] {S : Program T} {K : Topic S M}
    {r q : Broker S M} (h : Broker.Reachable K true r) {l ws : List (BrokerMessage M)} {msg : M}
    (hposted : postedMsgs r.trace = l ++ .publish msg :: ws) {i n : ℕ}
    (hn : n = (l.filter BrokerMessage.isPublish).length + 1) {x y : Spawned S}
    (hx : r.actors[i]? = some x) (hlooping : x.sys.phase.looping = true)
    (hopen : ∀ e ∈ accepted x.sys.trace, e.payload ≠ .stop) {ls : List (BrokerLabel S M)}
    (hrun : (Broker.system K true).run r ls = some q)
    (hc : (Broker.system K true).Along (Broker.Heeds n i) r ls)
    (hy : q.actors[i]? = some y) (hend : y.sys.Closed) :
    ∃ j, .sent n i msg j ∈ q.trace ∧ Broker.Asked K y msg j ∧
      ((∃ reply, .completed j reply ∈ y.sys.trace ∧
        Ran y.sys.trace j (.send (K.message y.type msg)) reply) ∨ .overran j ∈ y.sys.trace) := by
  obtain ⟨a, c, hreach⟩ := h.owning.alive i x hx
  have hstart : r.Stands n i := by
    refine ⟨x, hx, .inl ⟨fun hcl => ?_, hopen⟩⟩
    rcases hcl with hm | ⟨e, he, hp⟩
    · have := hreach.ends.active hlooping _ hm
      simp [Event.endsLoop] at this
    · exact hopen e (hreach.logged.ordered.subset he) hp
  obtain ⟨hq, y', hy', hstand⟩ := Machine.invariant_along
    (P := fun r : Broker S M => Broker.Reachable K true r ∧ r.Stands n i)
    (fun u k v hu hC hst => by
      obtain ⟨es, hs⟩ := Broker.step_cases hst
      exact ⟨hu.1.trans (.single hst), hu.2.step hu.1.owning hu.1.spaced hs hC⟩)
    ⟨h, hstart⟩ hc hrun
  rw [hy, Option.some_inj] at hy'
  subst hy'
  rcases hstand with ho | ⟨msg', e, hs, he⟩
  · exact absurd hend ho.1
  -- the topic stands in front of what closed the loop
  obtain ⟨ws', hpre⟩ := Broker.reaches_trace ⟨ls, hrun⟩
  have hpost : postedMsgs q.trace = l ++ .publish msg :: (ws ++ postedMsgs ws') := by
    rw [← hpre, postedMsgs_append, hposted, List.append_assoc, List.cons_append]
  obtain rfl := hq.sent_topic hpost (hn ▸ hs)
  obtain ⟨b, d, hreach'⟩ := hq.owning.alive i y hy
  have htask := hq.spaced.task hq.owning hy hs he.accepted
  obtain ⟨z, hz, hasked⟩ := hq.spaced.asked n i msg' e.id hs
  rw [hy, Option.some_inj] at hz
  subst hz
  have hcarries := hasked.carries (hq.owning.alive i y hy)
  refine ⟨e.id, hs, hasked, ?_⟩
  rcases hreach'.completed_or_overran he.accepted htask (he.concluded hend) with ⟨reply, hc⟩ | hov
  · exact .inl ⟨reply, hc, hcarries.ran reply hc⟩
  · exact .inr hov

namespace Tally

/-- One tally has subscribed and a number is published. -/
def published : List (BrokerLabel listeners ℕ) :=
  [.spawn () plain (0 : ℕ) (0 : ℕ), .actor 0 () (.loop (.hook true)),
    .actor 0 () (.handle (.derive 0 .weakSender)), .post (.subscribe ⟨0, 1⟩), .next [],
    .post (.publish 7)]

/-- The tally is stopped before the broker takes the publish. -/
def stopFirst : List (BrokerLabel listeners ℕ) :=
  [.actor 0 () (.op (.begin .stop 0)), .actor 0 () (.op (.push 0)), .actor 0 () (.loop .recv)]

/-- The number is in the mailbox of the tally. -/
def delivered : List (BrokerLabel listeners ℕ) :=
  published ++ [.next [⟨0, 1⟩], .poll, .poll, .poll, .actor 0 () (.op (.push 0))]

/-- The tally is stopped. -/
def stopLast : List (BrokerLabel listeners ℕ) :=
  [.actor 0 () (.op (.begin .stop 0)), .actor 0 () (.op (.push 1)), .actor 0 () (.loop .recv),
    .actor 0 () (.loop (.pollTask true ⟨false, false⟩)), .actor 0 () (.loop .recv)]

end Tally

/-- A `Stop` that is pushed when the publish has returned overtakes the topic. -/
theorem not_topic_before_stop : ¬ ∀ (r q : Broker Tally.listeners ℕ)
    (us vs ws : List (BrokerMessage ℕ)) (s : SenderAt) (msg n : ℕ) (x y : Spawned Tally.listeners)
    (ls : List (BrokerLabel Tally.listeners ℕ)), Broker.Reachable Tally.numbers true r →
    postedMsgs r.trace = us ++ .subscribe s :: vs ++ .publish msg :: ws →
    us.length < (takenMsgs r.trace).length → (∀ s', .unsubscribe s' ∈ vs → s'.id ≠ s.id) →
    n = ((us ++ .subscribe s :: vs).filter BrokerMessage.isPublish).length + 1 →
    r.actors[s.id]? = some x → x.sys.phase.looping = true →
    (∀ e ∈ accepted x.sys.trace, e.payload ≠ .stop) →
    (Broker.system Tally.numbers true).run r ls = some q → q.upgrades s.id = true →
    q.actors[s.id]? = some y → y.sys.Closed →
    ∃ j, .sent n s.id msg j ∈ q.trace ∧
      ((∃ reply, .completed j reply ∈ y.sys.trace) ∨ .overran j ∈ y.sys.trace) := by
  intro h
  obtain ⟨j, hs, -⟩ := h _ _ [] [] [] ⟨0, 1⟩ 7 1 _ _ Tally.stopFirst ⟨Tally.published, rfl⟩ rfl
    (by decide) (fun _ hm => by cases hm) rfl rfl rfl (fun _ hm => by cases hm) rfl rfl rfl
    (.inr ⟨⟨0, .stop⟩, List.mem_cons_self, rfl⟩)
  have hs' : BrokerEvent.sent 1 0 7 j ∈ [.posted (.subscribe ⟨0, 1⟩), .taken (.subscribe ⟨0, 1⟩),
    .posted (.publish 7)] := hs
  simp at hs'

/-- With the number in its mailbox the tally handles it. -/
theorem topic_before_stop_of_delivered : ∃ (r q : Broker Tally.listeners ℕ)
    (y : Spawned Tally.listeners),
    (Broker.system Tally.numbers true).run (Broker.init _ ℕ) Tally.delivered = some r ∧
    (Broker.system Tally.numbers true).run r Tally.stopLast = some q ∧ q.actors[0]? = some y ∧
    ∃ j, .sent 1 0 7 j ∈ q.trace ∧ Broker.Asked Tally.numbers y 7 j ∧
      ((∃ reply, .completed j reply ∈ y.sys.trace ∧
        Ran y.sys.trace j (.send (Tally.numbers.message y.type 7)) reply) ∨
          .overran j ∈ y.sys.trace) := by
  refine ⟨_, _, _, rfl, rfl, rfl, topic_before_stop ⟨Tally.delivered, rfl⟩
    (l := [.subscribe ⟨0, 1⟩]) rfl rfl rfl rfl (fun e he hp => ?_)
    (show (Broker.system Tally.numbers true).run _ Tally.stopLast = some _ from rfl)
    (Broker.Delivered.along ⟨_, 7, 0, rfl, ?_, ⟨0, .task (.send (7 : ℕ))⟩, ?_, rfl⟩
      ⟨Tally.delivered, rfl⟩) rfl (.inr ⟨⟨1, .stop⟩, ?_, rfl⟩)⟩
  · obtain rfl := List.mem_singleton.mp he
    cases hp
  · exact List.mem_of_getElem? (i := 5) rfl
  · exact List.mem_cons_self
  · exact List.mem_of_getElem? (i := 1) rfl

end Hannibal
