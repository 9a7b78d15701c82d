/-
Barriers through the broker.

The broker takes its messages in the order in which they were posted (`Fifo`) and
is done with a publish before it takes the next message (`Serial`); then every
send of that publish has returned (`sent_returned`) and was handed to its actor
(`Settled`), so the topic stands in the subscriber's mailbox in front of everything
that is sent there later.

* `barriers_compose` — a topic that was published after a `Subscribe` was taken
  and before a ping of the broker was answered has been handled once when a later
  request to the subscriber is answered.
-/
import Hannibal.Delivery
import Hannibal.Requests
import Hannibal.StreamLoop
import Mathlib.Data.List.Induction

open scoped List

namespace Hannibal

/-! ### A send in its actor -/

section Actor

variable {A : Actor}

namespace Sys

/-- The operation `j` has not pushed yet or was cancelled, its payload was accepted, or
nobody receives any more. -/
def Handed (s : Sys A) (j : ℕ) : Prop :=
  (∃ o, s.ops[j]? = some o ∧ (o.state = .begun ∨ o.state = .dropped)) ∨
    (∃ e ∈ accepted s.trace, e.id = j) ∨ s.chan.receiver = false

theorem Handed.step {E : Environment A} {s t : Sys A} {es : List (Event A)} {j : ℕ}
    (hs : s.Handed j) (h : E.Step s t es) : t.Handed j := by
  have hacc : (∃ e ∈ accepted s.trace, e.id = j) → t.Handed j := by
    rintro ⟨e, he, hid⟩
    refine .inr (.inl ⟨e, ?_, hid⟩)
    rw [h.trace, accepted_append]
    exact List.mem_append_left _ he
  rcases h.outside with ⟨ho, hef⟩ | ⟨-, hl⟩
  · rcases hs with ⟨o, hj, hst⟩ | hs | hs
    · cases hef with
      | idle es hw hops => exact .inl ⟨o, hops ▸ hj, hst⟩
      | add o' hst' hops =>
        refine .inl ⟨o, ?_, hst⟩
        rw [hops, List.getElem?_append_left (List.getElem?_eq_some_iff.mp hj).1, hj]
      | accept i o' hi hst' hr hops =>
        by_cases hij : i = j
        · refine .inr (.inl ⟨envelope i o', ?_, hij⟩)
          rw [ho.trace, accepted_append]
          exact List.mem_append_right _ List.mem_cons_self
        · exact .inl ⟨o, by rw [hops, List.getElem?_set_ne hij, hj], hst⟩
      | move i o' st hi hm hops =>
        by_cases hij : i = j
        · subst hij
          rw [hi, Option.some_inj] at hj
          subst hj
          have hself : t.ops[i]? = some { o' with state := st } := by
            rw [hops, List.getElem?_set_self (List.getElem?_eq_some_iff.mp hi).1]
          -- only a send that has not pushed yet can go on, and it is refused
          cases hm with
          | refused hb hr => exact .inr (.inr (ho.receiver.trans hr))
          | dropped hf => exact .inl ⟨_, hself, .inr rfl⟩
          | flushed hb | answered r hb | canceled hb => simp [hb] at hst
        · exact .inl ⟨o, by rw [hops, List.getElem?_set_ne hij, hj], hst⟩
    · exact hacc hs
    · exact .inr (.inr (ho.receiver.trans hs))
  · rcases hs with ⟨o, hj, hst⟩ | hs | hs
    · exact .inl ⟨o, hl.untouched.ops ▸ hj, hst⟩
    · exact hacc hs
    · cases hl.takes with
      | none hp hq hr => exact .inr (.inr (hr.trans hs))
      | head e hp hp' hq hr => exact .inr (.inr (hr.trans hs))
      | all hp hq hr => exact .inr (.inr hr)

/-- What is refreshed is a `Restart`. -/
structure Refreshing (s : Sys A) : Prop where
  current : ∀ i, s.phase = .refreshStopping i ∨ s.phase = .refreshStarting i →
    ∃ e ∈ taken s.trace, e.id = i ∧ e.payload = .restart
  done : ∀ i, .refreshed i ∈ s.trace → ∃ e ∈ taken s.trace, e.id = i ∧ e.payload = .restart

theorem LoopStep.refreshes {E : Environment A} {s t : Sys A} {es : List (Event A)}
    (h : s.LoopStep E t es) {i : ℕ}
    (hi : (t.phase = .refreshStopping i ∨ t.phase = .refreshStarting i) ∨ .refreshed i ∈ es) :
    (s.phase = .refreshStopping i ∨ s.phase = .refreshStarting i) ∨
      ∃ e ∈ taken es, e.id = i ∧ e.payload = .restart := by
  cases h with
  | startOk w es a c u hp =>
    cases hp with
    | first hp => simp [record] at hi
    | refresh k hp =>
      obtain rfl : i = k := by simpa [record] using hi
      exact .inl (.inr hp)
  | startErr => simp [record] at hi
  | refreshStop w k hp | recreate w k hp =>
    obtain rfl : k = i := by simpa using hi
    exact .inl (.inl hp)
  | takeRestart e q hp hs hq hf | ignoreRestart e q hp hs hq hf =>
    refine .inr ⟨e, List.mem_cons_self, ?_, hf⟩
    simpa [record, eq_comm] using hi
  | takeTask es e q f hr | restartPanic es e q hr =>
    obtain ⟨-, rfl | rfl⟩ := hr.events <;> simp [record] at hi
  | takeStop es e q hr | mailboxEnd es hr =>
    obtain ⟨-, rfl | rfl⟩ := hr.events <;>
      (simp only [record, Environment.afterLoop] at hi; split at hi <;> simp at hi)
  | streamPending hp => simp [record, hp] at hi
  | taskOverran =>
    simp only [Sys.overrun, record] at hi
    split at hi <;> simp at hi
  | crash o ho hs =>
    simp only [Sys.crash] at hi
    split at hi <;> simp at hi
  | dropContext => exact .inl (hi.resolve_right (by simp))
  | _ => simp [record, complete, Sys.notify, Sys.release] at hi

theorem Refreshing.step {E : Environment A} {s t : Sys A} {es : List (Event A)}
    (hs : s.Refreshing) (h : E.Step s t es) : t.Refreshing := by
  have hold : ∀ {i : ℕ}, (∃ e ∈ taken s.trace, e.id = i ∧ e.payload = .restart) →
      ∃ e ∈ taken t.trace, e.id = i ∧ e.payload = .restart := by
    rintro i ⟨e, he, hid⟩
    refine ⟨e, ?_, hid⟩
    rw [h.trace, taken_append]
    exact List.mem_append_left _ he
  rcases h.outside with ⟨ho, -⟩ | ⟨-, hl⟩
  · refine ⟨fun i hp => hold (hs.current i (ho.phase ▸ hp)), fun i hm => ?_⟩
    rw [ho.trace, List.mem_append] at hm
    exact hold (hs.done i (hm.resolve_right fun hm => ho.source _ hm rfl))
  · have hnew : ∀ i, (t.phase = .refreshStopping i ∨ t.phase = .refreshStarting i) ∨
        .refreshed i ∈ es → ∃ e ∈ taken t.trace, e.id = i ∧ e.payload = .restart := by
      intro i hi
      rcases hl.refreshes hi with hp | ⟨e, he, hid⟩
      · exact hold (hs.current i hp)
      · refine ⟨e, ?_, hid⟩
        rw [hl.trace, taken_append]
        exact List.mem_append_right _ he
    refine ⟨fun i hp => hnew i (.inl hp), fun i hm => ?_⟩
    rw [hl.trace, List.mem_append] at hm
    exact hm.elim (fun hm => hold (hs.done i hm)) fun hm => hnew i (.inr hm)

end Sys

/-- Nothing is accepted without the receiver. -/
theorem Environment.Step.shut {E : Environment A} {s t : Sys A} {es : List (Event A)}
    (h : E.Step s t es) (hr : s.chan.receiver = false) :
    t.chan.receiver = false ∧ accepted t.trace = accepted s.trace := by
  have hnil : accepted es = [] → accepted t.trace = accepted s.trace := fun he => by
    rw [h.trace, accepted_append, he, List.append_nil]
  rcases h.outside with ⟨ho, hef⟩ | ⟨-, hl⟩
  · refine ⟨ho.receiver.trans hr, hnil ?_⟩
    cases hef with
    | idle es hw => exact accepted_eq_nil fun e he => by simpa [Event.source] using hw _ he
    | add o hst => exact Sys.accepted_returnEvents _ _
    | accept i o hi hst hr' =>
      rw [hr] at hr'
      cases hr'
    | move i o st hi hm => exact Sys.accepted_returnEvents _ _
  · refine ⟨?_, hnil (accepted_eq_nil fun e he => by simpa [Event.source] using hl.source _ he)⟩
    cases hl.takes with
    | none hp hq hr' => exact hr'.trans hr
    | head e hp hp' hq hr' => exact hr'.trans hr
    | all hp hq hr' => exact hr'

theorem Environment.reaches_shut {E : Environment A} {s t : Sys A} (h : E.system.Reaches s t)
    (hr : s.chan.receiver = false) : accepted t.trace = accepted s.trace := by
  refine (Machine.invariant (P := fun u : Sys A => u.chan.receiver = false ∧
    accepted u.trace = accepted s.trace) (fun u l v hu hst => ?_) ⟨hr, rfl⟩ h).2
  obtain ⟨es, hes⟩ := Environment.step_cases hst
  obtain ⟨hv, ha⟩ := hes.shut hu.1
  exact ⟨hv, ha.trans hu.2⟩

/-- A strong handle is not upgraded, so its operations begin. -/
theorem Environment.step_begin_strong {E : Environment A} {s t : Sys A} {m : Method A} {i : ℕ}
    {hd : Handle} (hh : s.handle? i = some hd) (hs : hd.kind.strong = true)
    (h : E.step s (.op (.begin m i)) = some t) :
    ∃ o, o.state = .begun ∧ t.ops = s.ops ++ [o] := by
  simp only [step, Sys.opStep, hh, hs, if_true] at h
  split at h
  · cases h
    exact ⟨_, rfl, rfl⟩
  · cases h

namespace Environment.Reachable

variable {E : Environment A} {a : A.State} {c : A.Ctx} {s : Sys A}

theorem refreshing (h : E.Reachable a c s) : s.Refreshing := by
  refine reachable_induction (P := Sys.Refreshing) ⟨fun i hp => ?_, fun i hm => ?_⟩
    (fun _ _ _ _ _ hs hst => hs.step hst) h
  · simp [init] at hp
  · cases hm

/-- Without a timeout nothing overruns. -/
theorem in_time (h : E.Reachable a c s) (hT : E.taskTimeout = none) (i : ℕ) :
    .overran i ∉ s.trace := by
  refine reachable_induction (P := fun s : Sys A => .overran i ∉ s.trace) (by simp [init])
    (fun s t es _ _ hs hst hm => ?_) h
  rw [hst.trace, List.mem_append] at hm
  have hnew := hm.resolve_left hs
  rcases hst.outside with ⟨ho, -⟩ | ⟨-, hl⟩
  · exact ho.source _ hnew rfl
  · exact hl.no_overran hT i hnew

/-- A task is not a `Restart`. -/
theorem not_refreshed (h : E.Reachable a c s) {e : Envelope A} {f : TaskFn A}
    (he : e ∈ accepted s.trace) (hf : e.payload = .task f) : .refreshed e.id ∉ s.trace := by
  intro hmem
  obtain ⟨d, hd, hid, hp⟩ := h.refreshing.done _ hmem
  have hde : d = e :=
    List.inj_on_of_nodup_map h.enqueued.nodup (h.logged.ordered.subset hd) he hid
  rw [hde, hf] at hp
  cases hp

/-- A task in front of an answered request completed before the answer. -/
theorem completed_before (h : E.Reachable a c s) (hT : E.taskTimeout = none) {e e' : Envelope A}
    (hsub : [e, e'] <+ accepted s.trace) {f : TaskFn A} (hf : e.payload = .task f) {r : Reply A}
    (hret : .returned e'.id (.ok (some r)) ∈ s.trace) :
    ∃ reply, [.completed e.id reply, .returned e'.id (.ok (some r))] <+ s.trace := by
  have hcm := h.answered.sent e'.id r (h.replies.replied e'.id r hret)
  obtain ⟨ev, hev, hpair⟩ := h.concluded_before hsub hcm rfl
  have hbefore := (h.replies.after e'.id r _ rfl).pair_trans hpair hret
  have hmem := (mem_of_pair hbefore).1
  cases ev with
  | completed i reply =>
    obtain rfl := Option.some_inj.mp hev
    exact ⟨reply, hbefore⟩
  | overran i => exact absurd hmem (h.in_time hT i)
  | refreshed i =>
    obtain rfl := Option.some_inj.mp hev
    exact absurd hmem (h.not_refreshed (mem_of_pair hsub).1 hf)
  | _ => simp [Event.concluded?] at hev

/-- An operation that has returned, and was not refused before it pushed, is handled before
a request that begins later is answered. -/
theorem completed_of_handed {t : Sys A} (h : E.Reachable a c s) (hst : E.system.Reaches s t)
    (hT : E.taskTimeout = none) {j p : ℕ} {o : Op A} {f : TaskFn A} (hj : s.ops[j]? = some o)
    (hf : o.method.payload = .task f) (hh : s.Handed j)
    {res : Except ActorError (Option (Reply A))} (hres : .returned j res ∈ s.trace)
    (hp : s.ops.length ≤ p) {r : Reply A} (hret : .returned p (.ok (some r)) ∈ t.trace) :
    ∃ reply, [.completed j reply, .returned p (.ok (some r))] <+ t.trace := by
  have ht : E.Reachable a c t := h.trans hst
  obtain ⟨e', f', htk, rfl, -⟩ :=
    ht.handling.done p _ (ht.answered.sent p r (ht.replies.replied p r hret))
  have hnew : e' ∉ accepted s.trace := fun he' => by
    obtain ⟨o', ho', -⟩ := h.enqueued.op e' he'
    have := (List.getElem?_eq_some_iff.mp ho').1
    omega
  have hacc : e' ∈ accepted t.trace := ht.logged.ordered.subset (mem_taken.mpr htk)
  rcases hh with ⟨o', hj', hst'⟩ | ⟨e, he, rfl⟩ | hr
  · obtain ⟨o'', hj'', hret'⟩ := h.enqueued.returned j res hres
    rw [hj', Option.some_inj] at hj''
    rw [hj'', hret'] at hst'
    simp at hst'
  · -- what was accepted before the request began stands in front of it
    obtain ⟨es, hes⟩ := Environment.reaches_trace hst
    rw [← hes, accepted_append, List.mem_append] at hacc
    have hsub : [e, e'] <+ accepted t.trace := by
      rw [← hes, accepted_append]
      exact pair_sublist_append.mpr (.inr (.inr ⟨he, hacc.resolve_left hnew⟩))
    obtain ⟨o', ho', hpay, -⟩ := h.enqueued.op e he
    rw [hj, Option.some_inj] at ho'
    exact ht.completed_before hT hsub (by rw [hpay, ← ho', hf]) hret
  · exact absurd (Environment.reaches_shut hst hr ▸ hacc) hnew

theorem completed_once (h : E.Reachable a c s) {i : ℕ} {reply : Option (Reply A)}
    (hi : .completed i reply ∈ s.trace) : (completed s.trace).count i = 1 :=
  List.count_eq_one_of_mem (h.concluded_nodup.sublist (completed_sublist _))
    (List.mem_filterMap.mpr ⟨_, hi, rfl⟩)

end Environment.Reachable

end Actor

/-! ### The broker's mailbox -/

/-- The messages that were posted, in order. -/
def postedMsgs {M : Type} (t : List (BrokerEvent M)) : List (BrokerMessage M) :=
  t.filterMap BrokerEvent.posted?

@[simp] theorem postedMsgs_append {M : Type} (t u : List (BrokerEvent M)) :
    postedMsgs (t ++ u) = postedMsgs t ++ postedMsgs u := List.filterMap_append

/-- Who subscribed stays subscribed while nobody unsubscribes it. -/
theorem subscribed_of_subscribe {M : Type} {s : SenderAt} (us : List (BrokerMessage M))
    {vs : List (BrokerMessage M)} (hvs : ∀ s', .unsubscribe s' ∈ vs → s'.id ≠ s.id) :
    subscribed s.id (us ++ .subscribe s :: vs) = true := by
  induction vs using List.reverseRecOn with
  | nil =>
    rw [subscribed_append_singleton]
    exact if_pos rfl
  | append_singleton vs msg ih =>
    have hsub := ih fun s' hs' => hvs s' (List.mem_append_left _ hs')
    rw [← List.cons_append, ← List.append_assoc, subscribed_append_singleton]
    cases msg with
    | publish msg => exact hsub
    | ping k => exact hsub
    | subscribe s' =>
      show (if s'.id = s.id then true else _) = true
      rw [hsub, ite_self]
    | unsubscribe s' =>
      have hne := hvs s' (by simp)
      show (if s'.id = s.id then false else _) = true
      rw [if_neg hne, hsub]

namespace Broker

open Spawned (handleAt handleAt_eq_some)

variable {T M : Type} {S : Program T} {K : Topic S M} {prunes : Bool} {r q : Broker S M}

/-- What was posted is taken in that order; the rest is in the mailbox, unless the
broker has ended. -/
def Fifo (r : Broker S M) : Prop :=
  Pipeline (postedMsgs r.trace) (takenMsgs r.trace) r.mailbox r.phase.isHalted

theorem Fifo.step (h : r.Fifo) {l : BrokerLabel S M} {es : List (BrokerEvent M)}
    (hs : BrokerStep K prunes r l es q) : q.Fifo := by
  unfold Fifo at h ⊢
  rw [hs.trace, postedMsgs_append, takenMsgs_append]
  refine Pipeline.step h ?_
  -- the broker takes the message in front
  have htake : ∀ msg rest, r.phase = .idle → r.mailbox = msg :: rest →
      postedMsgs es = [] → takenMsgs es = [msg] → q.mailbox = rest →
      Pipeline.Passes r.mailbox (postedMsgs es) (takenMsgs es) q.mailbox r.phase.isHalted
        q.phase.isHalted := by
    intro msg rest hp hm hpost htaken hq
    rw [hpost, htaken, hq, hm]
    refine ⟨fun _ => ⟨by simp, fun _ => by simp⟩, fun hh => ?_⟩
    rw [hp] at hh
    cases hh
  -- the mailbox stays as it is
  have hkeep : postedMsgs es = [] → takenMsgs es = [] → q.mailbox = r.mailbox →
      q.phase.isHalted = r.phase.isHalted →
      Pipeline.Passes r.mailbox (postedMsgs es) (takenMsgs es) q.mailbox r.phase.isHalted
        q.phase.isHalted := by
    intro hpost htaken hm hh
    rw [hpost, htaken, hm, hh]
    exact ⟨fun _ => ⟨List.nil_prefix, fun _ => by simp⟩, fun h => ⟨h, rfl, rfl⟩⟩
  cases hs with
  | post msg ha hp =>
    refine ⟨fun _ => ⟨List.nil_prefix, fun _ => rfl⟩, fun hh => ?_⟩
    rw [hp] at hh
    cases hh
  | publish msg rest vs hp hm | subscribe s rest vs hp hm | unsubscribe s rest vs hp hm
  | ping k rest vs hp hm => exact htake _ rest hp hm rfl rfl rfl
  | halt hp =>
    refine ⟨fun _ => ⟨List.nil_prefix, fun hh => by cases hh⟩, fun hh => ?_⟩
    rw [hp] at hh
    cases hh
  | spawn | act => exact hkeep rfl rfl rfl rfl
  | sent p hp =>
    refine hkeep rfl rfl rfl ?_
    rw [hp]
    cases prunes <;> rfl
  | _ => exact hkeep rfl rfl rfl (by simp [*, BrokerPhase.isHalted, record])

/-- A publish that was taken is being handled, or was done before the next message was
taken. -/
def Serial (r : Broker S M) : Prop :=
  ∀ xs msg ys, r.trace = xs ++ .taken (.publish msg) :: ys →
    (takenMsgs ys = [] ∧ r.phase ≠ .idle) ∨
      ∃ us vs, ys = us ++ .finished :: vs ∧ takenMsgs us = []

/-- The broker takes a message only when it is idle, and is idle again only when the publish
is done. -/
theorem Serial.next (h : r.Serial) {es : List (BrokerEvent M)} (ht : q.trace = r.trace ++ es)
    (hbusy : r.phase ≠ .idle → takenMsgs es = [] ∧ (q.phase = .idle → es = [.finished]))
    (hnew : ∀ msg, .taken (.publish msg) ∈ es → es = [.taken (.publish msg)] ∧ q.phase ≠ .idle) :
    q.Serial := by
  intro xs msg ys hsplit
  rw [ht] at hsplit
  rcases split_append hsplit with ⟨zs, hr, rfl⟩ | ⟨zs, hes, rfl⟩
  · rcases h xs msg zs hr with ⟨hzs, hp⟩ | ⟨us, vs, rfl, hus⟩
    · obtain ⟨htaken, hfin⟩ := hbusy hp
      by_cases hq : q.phase = .idle
      · exact .inr ⟨zs, [], by rw [hfin hq], hzs⟩
      · refine .inl ⟨?_, hq⟩
        rw [takenMsgs_append, hzs, htaken, List.append_nil]
    · exact .inr ⟨us, vs ++ es, by rw [List.append_assoc, List.cons_append], hus⟩
  · obtain ⟨he, hq⟩ := hnew msg (hes ▸ List.mem_append_right _ List.mem_cons_self)
    rw [he] at hes
    rcases zs with _ | ⟨z, zs⟩
    · obtain rfl : [] = ys := (List.cons.inj hes).2
      exact .inl ⟨rfl, hq⟩
    · exact absurd (List.cons.inj hes).2 (by simp)

theorem Serial.step (h : r.Serial) {l : BrokerLabel S M} {es : List (BrokerEvent M)}
    (hs : BrokerStep K prunes r l es q) : q.Serial := by
  have ht := hs.trace
  cases hs with
  | publish msg rest vs hp hm =>
    refine h.next ht (fun hn => absurd hp hn) fun msg' hmsg => ?_
    rw [List.mem_singleton] at hmsg
    exact ⟨by rw [hmsg], fun hq => by cases hq⟩
  | subscribe s rest vs hp hm | unsubscribe s rest vs hp hm | ping k rest vs hp hm =>
    exact h.next ht (fun hn => absurd hp hn) fun msg' hmsg => by simp at hmsg
  | finish hp => exact h.next ht (fun _ => ⟨rfl, fun _ => rfl⟩) fun msg hmsg => by simp at hmsg
  | spawn | act | post =>
    exact h.next ht (fun hn => ⟨rfl, fun hq => absurd hq hn⟩) fun msg hmsg => by simp at hmsg
  | sent p hp =>
    refine h.next ht (fun _ => ⟨rfl, fun hq => ?_⟩) fun msg hmsg => by simp at hmsg
    cases prunes <;> simp at hq
  | _ => exact h.next ht (fun _ => ⟨rfl, fun hq => by cases hq⟩) fun msg hmsg => by simp at hmsg

/-! ### What becomes of the sends -/

/-- Every send was handed to its actor, and who could not be upgraded is gone. -/
structure Settled (r : Broker S M) : Prop where
  handed : ∀ n i msg j, .sent n i msg j ∈ r.trace →
    ∃ x, r.actors[i]? = some x ∧ x.sys.Handed j
  failed : ∀ i, .upgraded i false ∈ r.trace → r.Gone i

theorem handed_leads {x y : Spawned S} {j : ℕ} (h : x.sys.Handed j) (hx : x.Alive)
    (hxy : x.Leads y) : y.sys.Handed j := by
  refine hxy.induction hx (P := fun y => y.sys.Handed j) h fun s l t a c hr hst hs => ?_
  obtain ⟨es, hes⟩ := Environment.step_cases hst
  exact hs.step hes

namespace Settled

theorem init (S : Program T) (M : Type) : (Broker.init S M).Settled where
  handed n i msg j h := by cases h
  failed i h := by cases h

theorem step (h : r.Settled) (ho : r.Owning) {l : BrokerLabel S M} {es : List (BrokerEvent M)}
    (hs : BrokerStep K prunes r l es q) : q.Settled := by
  have ht := hs.trace
  have hl := hs.later
  refine ⟨fun n i msg j hm => ?_, fun i hm => ?_⟩
  · rw [ht, List.mem_append] at hm
    rcases hm with hm | hm
    · obtain ⟨x, hx, hxh⟩ := h.handed n i msg j hm
      obtain ⟨y, hy, hxy⟩ := hl.actor i x hx
      exact ⟨y, hy, handed_leads hxh (ho.alive i x hx) hxy⟩
    · cases hs with
      | send p s todo x t hp hx htx =>
        cases List.mem_singleton.mp hm
        have hlive : s ∈ r.phase.live := ho.toSend s (by rw [hp]; exact List.mem_cons_self)
        obtain ⟨hd, hh, hk⟩ := ho.live s hlive
        obtain ⟨y, hy, hyh⟩ := handleAt_eq_some.mp hh
        rw [hx, Option.some_inj] at hy
        subst hy
        obtain ⟨o, hst, hops⟩ := Environment.step_begin_strong hyh (by rw [hk]; rfl) htx
        refine ⟨{ x with sys := t }, ?_, .inl ⟨o, ?_, .inl hst⟩⟩
        · exact List.getElem?_set_self (List.getElem?_eq_some_iff.mp hx).1
        · show t.ops[_]? = _
          rw [hops, List.getElem?_concat_length]
      | _ => simp at hm
  · rw [ht, List.mem_append] at hm
    rcases hm with hm | hm
    · exact (h.failed i hm).step ho hs
    · have hgone : r.Gone i := by
        cases hs with
        | fail p s todo hp hu =>
          cases List.mem_singleton.mp hm
          exact ho.gone (ho.goes s (by simp [hp, BrokerPhase.weak])) rfl hu
        | _ => simp at hm
      exact hgone.step ho hs

end Settled

namespace Reachable

variable [DecidableEq T]

theorem fifo (h : Reachable K prunes r) : r.Fifo :=
  (h.induction (P := Fifo) ⟨List.nil_prefix, fun _ => rfl⟩
    fun _ _ _ _ _ _ hr hs => hr.step hs).2.2

theorem serial (h : Reachable K prunes r) : r.Serial := by
  refine (h.induction (P := Serial) (fun xs msg ys hsplit => ?_)
    fun _ _ _ _ _ _ hr hs => hr.step hs).2.2
  have hlen := congrArg List.length hsplit
  simp [Broker.init] at hlen

theorem settled (h : Reachable K prunes r) : r.Settled :=
  (h.induction (P := Settled) (.init S M) fun _ _ _ _ ho _ hr hs => hr.step ho hs).2.2

/-- A publish that is done was sent to a subscriber who can still be upgraded, and that send
has returned. -/
theorem sent_of_done (h : Reachable K prunes r) {l ws : List (BrokerMessage M)} {msg : M}
    (htaken : takenMsgs r.trace = l ++ .publish msg :: ws) (hend : ws ≠ [] ∨ r.phase = .idle)
    {i : ℕ} (hsub : subscribed i l = true) {x : Spawned S} (hx : r.actors[i]? = some x)
    (hup : x.sys.arcs.upgrade .weakSender ≠ none) :
    ∃ j, .sent ((l.filter BrokerMessage.isPublish).length + 1) i msg j ∈ r.trace ∧
      HasReturned x j := by
  have hngone : ¬ r.Gone i := fun hg => by
    obtain ⟨y, hy, hyu⟩ := hg
    rw [hx, Option.some_inj] at hy
    exact hup (hy ▸ hyu)
  obtain ⟨xs, ys', hr, hxs, hys'⟩ := List.filterMap_eq_append_iff.mp htaken
  obtain ⟨zs, e, ys, rfl, hzs, he, hys⟩ := List.filterMap_eq_cons_iff.mp hys'
  obtain rfl : e = .taken (.publish msg) := by
    cases e <;> simp [BrokerEvent.taken?] at he
    rw [he]
  have hl : takenMsgs (xs ++ zs) = l := by
    rw [takenMsgs_append, show takenMsgs zs = [] from List.filterMap_eq_nil_iff.mpr hzs,
      List.append_nil]
    exact hxs
  rw [← List.append_assoc] at hr
  -- the round of the publish is over
  rcases h.serial _ msg ys hr with ⟨hnil, hbusy⟩ | ⟨us, vs, rfl, hus⟩
  · exact hend.elim (absurd (hys.symm.trans hnil)) (absurd · hbusy)
  have hround := h.rounds.closed _ msg us vs hr hus
  have htried : i ∈ tried us ++ BrokerPhase.untried (M := M) .idle := by
    rcases hround.missed i (by rw [hl, hsub]) with hi | hi
    · exact hi
    · refine absurd (h.listed.gone i ?_) hngone
      rw [hr]
      exact List.mem_append_left _ hi
  have hus_sub : us ⊆ r.trace := fun e he => by
    rw [hr]
    simp [he]
  have hwon : i ∈ won us := by
    obtain ⟨ok, hok⟩ := mem_tried.mp (by simpa [BrokerPhase.untried] using htried)
    cases ok with
    | true => exact mem_won.mpr hok
    | false => exact absurd (h.settled.failed i (hus_sub hok)) hngone
  have hsend : (publishes (xs ++ zs) + 1, i, msg) ∈ sends us := by
    have hs := hround.sends
    rw [show BrokerPhase.unsent (M := M) .idle = [] from rfl, List.map_nil, List.append_nil] at hs
    rw [hs]
    exact List.mem_map_of_mem hwon
  obtain ⟨j, hj⟩ := mem_sends.mp hsend
  rw [publishes, hl] at hj
  obtain ⟨y, hy, hret⟩ := h.sent_returned
    (show r.trace = xs ++ zs ++ .taken (.publish msg) :: us ++ .finished :: vs by simp [hr])
    (List.mem_append_right _ (List.mem_cons_of_mem _ hj))
  rw [hx, Option.some_inj] at hy
  exact ⟨j, hus_sub hj, hy ▸ hret⟩

/-- So was a publish after which another message was taken. -/
theorem sent_of_taken (h : Reachable K prunes r) {l ws : List (BrokerMessage M)} {msg : M}
    (htaken : takenMsgs r.trace = l ++ .publish msg :: ws) (hws : ws ≠ []) {i : ℕ}
    (hsub : subscribed i l = true) {x : Spawned S} (hx : r.actors[i]? = some x)
    (hup : x.sys.arcs.upgrade .weakSender ≠ none) :
    ∃ j, .sent ((l.filter BrokerMessage.isPublish).length + 1) i msg j ∈ r.trace ∧
      HasReturned x j := h.sent_of_done htaken (.inl hws) hsub hx hup

/-- A publish is sent to a subscriber once. -/
theorem sent_unique (h : Reachable K prunes r) {n i : ℕ} {msg msg' : M} {j j' : ℕ}
    (hs : .sent n i msg j ∈ r.trace) (hs' : .sent n i msg' j' ∈ r.trace) :
    msg' = msg ∧ j' = j := by
  by_contra hne
  have he : BrokerEvent.sent n i msg j ≠ .sent n i msg' j' := fun he => by
    cases he
    exact hne ⟨rfl, rfl⟩
  rcases pair_of_mem hs hs' he with hp | hp
  · have := (h.spaced.apart _ _ _ _ _ _ _ hp).1
    omega
  · have := (h.spaced.apart _ _ _ _ _ _ _ hp).1
    omega

end Reachable

end Broker

/-- **Barriers compose.**  A `Subscribe`, a publish and a ping were posted in this order, and
in the state `r` the ping has been answered; a request to the subscriber that begins
afterwards is answered.  Then the subscriber, held by a strong handle till then and never
unsubscribed, has handled that publish, once and before the answer. -/
theorem barriers_compose {T M : Type} [DecidableEq T] {S : Program T} {K : Topic S M}
    {r q : Broker S M} (h : Broker.Reachable K true r) (hq : (Broker.system K true).Reaches r q)
    {us vs ws zs : List (BrokerMessage M)} {s : SenderAt} {msg : M} {k : ℕ}
    (hposted : postedMsgs r.trace =
      us ++ .subscribe s :: vs ++ .publish msg :: ws ++ .ping k :: zs)
    (hping : (us ++ .subscribe s :: vs ++ .publish msg :: ws).length < (takenMsgs r.trace).length)
    (hsub : ∀ s', .unsubscribe s' ∈ vs → s'.id ≠ s.id)
    {x y : Spawned S} (hx : r.actors[s.id]? = some x) (hy : q.actors[s.id]? = some y)
    {i : ℕ} {hd : Handle} (hh : x.sys.handle? i = some hd)
    (hk : hd.kind = .addr ∨ hd.kind = .owningAddr ∨ hd.kind = .sender)
    (hT : y.env.config.timeout = none) {p : ℕ} (hp : x.sys.ops.length ≤ p)
    {reply : Reply (S.actor y.type)} (hreply : .returned p (.ok (some reply)) ∈ y.sys.trace) :
    ∃ j, (∀ msg' j', .sent (((us ++ .subscribe s :: vs).filter BrokerMessage.isPublish).length + 1)
        s.id msg' j' ∈ q.trace ↔ msg' = msg ∧ j' = j) ∧
      Broker.Asked K y msg j ∧ (completed y.sys.trace).count j = 1 ∧
        ∃ reply', Ran y.sys.trace j (.send (K.message y.type msg)) reply' ∧
          [.completed j reply', .returned p (.ok (some reply))] <+ y.sys.trace := by
  -- the broker has taken the publish, and the ping after it
  obtain ⟨vs', hvs'⟩ : us ++ .subscribe s :: vs ++ [.publish msg] <+: takenMsgs r.trace := by
    refine List.prefix_of_prefix_length_le ⟨ws ++ .ping k :: zs, ?_⟩
      h.fifo.order ?_
    · simp [hposted]
    · simp only [List.length_append, List.length_cons, List.length_nil] at hping ⊢
      omega
  have hne : vs' ≠ [] := by
    rintro rfl
    rw [← hvs'] at hping
    simp at hping
  obtain ⟨a, c, hreach⟩ := h.owning.alive s.id x hx
  have hup : x.sys.arcs.upgrade .weakSender ≠ none := by
    obtain ⟨htx, hforce⟩ := hreach.counted.handle_le hh
    rcases hk with hk | hk | hk <;> rw [hk] at htx hforce <;>
      simp only [HandleKind.captures] at htx hforce <;>
      rw [Arcs.upgrade, if_pos ⟨by omega, by omega⟩] <;> simp
  have htaken : takenMsgs r.trace = us ++ .subscribe s :: vs ++ .publish msg :: vs' := by
    simp [← hvs']
  obtain ⟨j, hj, res, hres⟩ :=
    h.sent_of_taken htaken hne (subscribed_of_subscribe us hsub) hx hup
  obtain ⟨x', hx', o, ho, hm⟩ := h.spaced.asked _ _ _ _ hj
  obtain ⟨x'', hx'', hhanded⟩ := h.settled.handed _ _ _ _ hj
  rw [hx, Option.some_inj] at hx' hx''
  subst hx' hx''
  obtain ⟨y', hy', hxy⟩ := (Broker.reaches_later hq).actor s.id x hx
  rw [hy, Option.some_inj] at hy'
  subst hy'
  have hasked : Broker.Asked K y msg j := Broker.Asked.leads ⟨o, ho, hm⟩ ⟨a, c, hreach⟩ hxy
  obtain ⟨t, rfl, hst⟩ := hxy
  have hreach' : x.env.Reachable a c t := hreach.trans hst
  -- its send has returned, so it is handled before the later request is answered
  have htimeout : x.env.taskTimeout = none := by
    unfold Environment.taskTimeout
    split
    · exact hT
    · rfl
  obtain ⟨reply', hpair⟩ := hreach.completed_of_handed hst htimeout ho
    (f := .send (K.message x.type msg)) (by rw [hm]; rfl) hhanded hres hp hreply
  have htr : r.trace ⊆ q.trace := (Broker.reaches_trace hq).subset
  obtain ⟨o', ho', hm'⟩ := hasked
  have hran := hreach'.ran ho' (f := .send (K.message x.type msg)) (by rw [hm']; rfl)
    (mem_of_pair hpair).1
  refine ⟨j, fun msg' j' => ⟨fun hs' => ?_, ?_⟩, ⟨o', ho', hm'⟩, ?_, reply', hran, hpair⟩
  · exact Broker.Reachable.sent_unique (h.trans hq) (htr hj) hs'
  · rintro ⟨rfl, rfl⟩
    exact htr hj
  · exact hreach'.completed_once (mem_of_pair hpair).1

namespace Tally

/-- One tally subscribes, a number is published, and the broker is pinged. -/
def barrier : List (BrokerLabel listeners ℕ) :=
  [.spawn () plain (0 : ℕ) (0 : ℕ), .actor 0 () (.loop (.hook true)),
    .actor 0 () (.handle (.derive 0 .weakSender)), .post (.subscribe ⟨0, 1⟩), .post (.publish 7),
    .post (.ping 0), .next [], .next [⟨0, 1⟩], .poll, .poll, .poll, .actor 0 () (.op (.push 0)),
    .actor 0 () (.op (.flush 0)), .poll, .poll, .poll, .poll, .poll, .poll, .next []]

/-- The tally is pinged. -/
def request : List (BrokerLabel listeners ℕ) :=
  [.actor 0 () (.op (.begin .ping 0)), .actor 0 () (.op (.push 1)), .actor 0 () (.loop .recv),
    .actor 0 () (.loop (.pollTask true ⟨false, false⟩)), .actor 0 () (.loop .recv),
    .actor 0 () (.loop (.pollTask true ⟨false, false⟩)), .actor 0 () (.op (.respond 1))]

end Tally

/-- The tally has counted the number when its ping is answered. -/
theorem barriers_compose_of_request : ∃ (r q : Broker Tally.listeners ℕ)
    (y : Spawned Tally.listeners),
    (Broker.system Tally.numbers true).run (Broker.init _ ℕ) Tally.barrier = some r ∧
    (Broker.system Tally.numbers true).run r Tally.request = some q ∧ q.actors[0]? = some y ∧
    ∃ j, (∀ msg' j', .sent 1 0 msg' j' ∈ q.trace ↔ msg' = 7 ∧ j' = j) ∧
      Broker.Asked Tally.numbers y 7 j ∧ (completed y.sys.trace).count j = 1 ∧
        ∃ reply', Ran y.sys.trace j (.send (Tally.numbers.message y.type 7)) reply' ∧
          [.completed j reply', .returned 1 (.ok (some .pong))] <+ y.sys.trace :=
  ⟨_, _, _, rfl, rfl, rfl, @barriers_compose _ _ _ _ _ _ _ ⟨Tally.barrier, rfl⟩
    ⟨Tally.request, rfl⟩ [] [] [] [] ⟨0, 1⟩ 7 0 rfl (by decide) (fun _ h => by cases h) _ _ rfl rfl
    0 _ rfl (.inr (.inl rfl)) rfl 1 (le_refl 1) .pong (List.mem_of_getElem? (i := 14) rfl)⟩

end Hannibal
