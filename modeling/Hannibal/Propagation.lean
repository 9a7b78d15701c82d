/-
What comes of a publish.

The broker goes on with its mailbox and with the publish it handles, the actors go on as
in `Sys.works`, all of them in any order.  A publish costs the broker a few steps for each
subscriber, and each of its sends an actor some more; so the pair of what is left for the
broker and of what is left for the actors descends.

* `Broker.settles` — whatever the schedule, the broker and all actors come to rest;
* **`publish_settles`** — and then every publish has been handled by everybody who was
  subscribed, still runs and is still held.
-/
import Hannibal.Barriers
import Hannibal.Resting

namespace Hannibal

/-! ### All actors -/

theorem Sys.worksSilent_uses {A : Actor} {s : Sys A} {l : Label A} (h : s.worksSilent l = true) :
    l.uses = none ∧ l.cancels = none := by
  cases l with
  | handle l => cases h
  | op l => cases l <;> first | exact ⟨rfl, rfl⟩ | cases h
  | loop l => exact ⟨rfl, rfl⟩
  | watch l => cases l <;> first | exact ⟨rfl, rfl⟩ | cases h

namespace Spawned

variable {T : Type} {S : Program T} {xs : List (Spawned S)} {x : Spawned S}

/-- The step of the actor `i` goes on with something that was begun. -/
def worksAt [DecidableEq T] (xs : List (Spawned S)) (i : ℕ) (t : T) (l : Label (S.actor t)) :
    Bool :=
  match xs[i]? with
  | some x => if ht : t = x.type then x.sys.worksSilent (ht ▸ l) else false
  | none => false

theorem worksAt_eq [DecidableEq T] {i : ℕ} (hx : xs[i]? = some x) (l : Label (S.actor x.type)) :
    worksAt xs i x.type l = x.sys.worksSilent l := by
  simp [worksAt, hx]

/-- What is left for the actors. -/
def totalCost (rank : ∀ t, (S.actor t).Fut → ℕ) (xs : List (Spawned S)) : ℕ :=
  (xs.map fun x => x.sys.cost (rank x.type) x.env 0).sum

theorem totalCost_set {rank : ∀ t, (S.actor t).Fut → ℕ}
    (hf : ∀ t, (S.actor t).Finishing (rank t)) {i : ℕ} {l : Label (S.actor x.type)}
    {s : Sys (S.actor x.type)} (hx : xs[i]? = some x) (hw : x.sys.worksSilent l = true)
    (hst : x.env.step x.sys l = some s) :
    totalCost rank (xs.set i { x with sys := s }) < totalCost rank xs := by
  have hcost := Environment.silent_cost (hf x.type) hw hst
  have hsum := Table.sum_map_set (f := fun x : Spawned S => x.sys.cost (rank x.type) x.env 0)
    (b := { x with sys := s }) hx
  simp only [totalCost] at hsum ⊢
  omega

theorem Alive.atRest (hW : ∀ t, Nonempty (S.actor t).World) (hx : x.Alive)
    (hq : ∀ l, x.sys.worksSilent l = true → x.env.step x.sys l = none) : x.sys.AtRest := by
  obtain ⟨a, c, hreach⟩ := hx
  have : Nonempty (S.actor x.type).World := hW x.type
  exact Environment.Reachable.atRest hq hreach

end Spawned

/-! ### The broker -/

namespace BrokerPhase

variable {M : Type}

/-- The steps that are left of the handler, at most. -/
def left : BrokerPhase M → ℕ
  | .idle => 0
  | .upgrading p todo => 5 * todo.length + 4 * p.live.length + p.values.length + 5
  | .sending p todo => 2 * todo.length + p.live.length + p.values.length + 4
  | .awaiting p _ _ todo => 2 * todo.length + p.live.length + p.values.length + 5
  | .retaining p todo => todo.length + p.live.length + 3
  | .dropping todo => todo.length + 2
  | .halted todo => todo.length

end BrokerPhase

namespace Broker

open Spawned (handleAt handleAt_eq_some)

variable {T M : Type} {S : Program T} {K : Topic S M} {prunes : Bool} {r q : Broker S M}

/-- The step goes on with something that was begun. -/
def works [DecidableEq T] (r : Broker S M) : BrokerLabel S M → Bool
  | .actor i t l => Spawned.worksAt r.actors i t l
  | .next _ => true
  | .poll => true
  | .spawn _ _ _ _ => false
  | .post _ => false
  | .halt => false

/-- What is left for the broker. -/
def left (r : Broker S M) : ℕ := r.phase.left + r.mailbox.length * (6 * r.actors.length + 6)

/-- Everybody rests: the broker has nothing more to do, or has ended. -/
structure AtRest (r : Broker S M) : Prop where
  actors : ∀ x ∈ r.actors, x.sys.AtRest
  broker : r.phase = .idle ∧ r.mailbox = [] ∨ r.phase = .halted []

/-! ### The send that is awaited -/

/-- Nobody cancels the send that the broker awaits. -/
def Awaits (r : Broker S M) : Prop :=
  ∀ i op, r.phase.send? = some (i, op) →
    ∃ x, r.actors[i]? = some x ∧ ∃ o, x.sys.ops[op]? = some o ∧ o.state ≠ .dropped

theorem Awaits.step (h : r.Awaits) (ho : r.Owning) {l : BrokerLabel S M}
    {es : List (BrokerEvent M)} (hs : BrokerStep K prunes r l es q) : q.Awaits := by
  -- a phase without a send
  have hnone : q.phase.send? = none → q.Awaits := fun hn i op hsend => by
    rw [hn] at hsend
    cases hsend
  cases hs with
  | spawn t E a c =>
    intro i op hsend
    obtain ⟨x, hx, hop⟩ := h i op hsend
    exact ⟨x, by rw [List.getElem?_append_left (List.getElem?_eq_some_iff.mp hx).1, hx], hop⟩
  | act j x l s hx hst ha =>
    intro i op hsend
    obtain ⟨y, hy, hop⟩ := h i op hsend
    by_cases hij : j = i
    · subst hij
      rw [hx, Option.some_inj] at hy
      subst hy
      refine ⟨{ x with sys := s }, List.getElem?_set_self (List.getElem?_eq_some_iff.mp hx).1, ?_⟩
      refine Environment.step_not_dropped hst ?_ hop
      rintro rfl
      simp [allows, Label.cancels, hsend] at ha
    · exact ⟨y, by rw [List.getElem?_set_ne hij, hy], hop⟩
  | post msg => exact h
  | send p s todo x t hp hx ht =>
    intro i op hsend
    cases hsend
    have hlive : s ∈ r.phase.live := ho.toSend s (by rw [hp]; exact List.mem_cons_self)
    obtain ⟨hd, hh, hk⟩ := ho.live s hlive
    obtain ⟨y, hy, hyh⟩ := handleAt_eq_some.mp hh
    rw [hx, Option.some_inj] at hy
    subst hy
    obtain ⟨o, hst, hops⟩ := Environment.step_begin_strong hyh (by rw [hk]; rfl) ht
    refine ⟨{ x with sys := t }, List.getElem?_set_self (List.getElem?_eq_some_iff.mp hx).1, o, ?_,
      by rw [hst]; simp⟩
    show t.ops[_]? = _
    rw [hops, List.getElem?_concat_length]
  | sent p hp =>
    refine hnone ?_
    cases prunes <;> rfl
  | _ => exact hnone (by simp [record, BrokerPhase.send?, *])

theorem Reachable.awaits [DecidableEq T] (h : Reachable K prunes r) : r.Awaits :=
  (h.induction (P := Awaits) (fun i op hsend => by cases hsend)
    fun _ _ _ _ ho _ hr hs => hr.step ho hs).2.2

/-! ### What a step takes away -/

theorem onHandle_length (r : Broker S M) (i : ℕ) (l : HandleLabel) :
    (r.onHandle i l).actors.length = r.actors.length := List.length_modify ..

/-- There are no more values than actors. -/
theorem Enumerates.length_le {vs : List SenderAt} (hv : r.Enumerates vs) (ho : r.Owning) :
    vs.length ≤ r.actors.length := by
  have hsub : vs.map SenderAt.id ⊆ List.range r.actors.length := by
    intro i hi
    obtain ⟨s, hs, rfl⟩ := List.mem_map.mp hi
    exact List.mem_range.mpr (ho.lt_length (hv.2.1 s hs))
  have := (List.subperm_of_subset hv.1 hsub).length_le
  rwa [List.length_map, List.length_range] at this

/-- Each step of the broker leaves less for it. -/
theorem BrokerStep.left (ho : r.Owning) {l : BrokerLabel S M} {es : List (BrokerEvent M)}
    (hs : BrokerStep K prunes r l es q) (hl : l = .poll ∨ ∃ vs, l = .next vs) :
    q.left < r.left := by
  have hpoll : q.mailbox = r.mailbox → q.actors.length = r.actors.length →
      q.phase.left < r.phase.left → q.left < r.left := by
    intro hm ha hp
    rw [Broker.left, Broker.left, hm, ha]
    omega
  have hnext : ∀ {msg}, r.mailbox = msg :: q.mailbox → q.actors = r.actors →
      q.phase.left < r.phase.left + (6 * r.actors.length + 6) → q.left < r.left := by
    intro msg hm ha hp
    rw [Broker.left, Broker.left, hm, ha, List.length_cons, Nat.add_mul]
    omega
  cases hs with
  | spawn | act | post | halt => simp at hl
  | publish msg rest vs hp hm hv =>
    refine hnext hm rfl ?_
    -- the topic leaves the mailbox and pays for a round through the map
    have := hv.length_le ho
    simp only [record, hp, BrokerPhase.left, List.length_nil]
    omega
  | subscribe s rest vs hp hm | unsubscribe s rest vs hp hm | ping k rest vs hp hm =>
    refine hnext hm rfl ?_
    simp only [record, hp]
    omega
  | upgrade p s todo hp hu =>
    refine hpoll rfl (onHandle_length ..) ?_
    simp only [record, hp, BrokerPhase.left, Publishing.collect, List.length_append,
      List.length_cons, List.length_nil]
    omega
  | drop s todo hp | unhand s todo hp =>
    refine hpoll rfl (onHandle_length ..) ?_
    simp [hp, BrokerPhase.left]
  | send p s todo x t hp hx ht =>
    refine hpoll rfl List.length_set ?_
    simp only [record, hp, BrokerPhase.left, List.length_cons]
    omega
  | sent p hp =>
    refine hpoll rfl rfl ?_
    rw [hp]
    cases prunes <;> simp [BrokerPhase.left] <;> omega
  | fail p s todo hp | collect p hp | «return» p i op todo hp | keep p s todo hp | prune p s todo hp
  | retained p hp | finish hp =>
    refine hpoll rfl rfl ?_
    simp only [record, hp, BrokerPhase.left, List.length_cons, List.length_nil]
    omega

/-- The map has an order to go through. -/
theorem Owning.enumerates (h : r.Owning) : ∃ vs, r.Enumerates vs := by
  have hid : ∀ {i s}, r.subscribers i = some s → s.id = i := fun hs => (h.listed _ _ hs).1
  refine ⟨(List.range r.actors.length).filterMap r.subscribers, ?_, ?_, ?_⟩
  · have hmap : ((List.range r.actors.length).filterMap r.subscribers).map SenderAt.id =
        (List.range r.actors.length).filter fun i => (r.subscribers i).isSome := by
      rw [List.map_filterMap, ← List.filterMap_eq_filter]
      refine List.filterMap_congr fun i _ => ?_
      cases hs : r.subscribers i with
      | none => simp [Option.guard, hs]
      | some s => simp [Option.guard, hs, hid hs]
    rw [hmap]
    exact List.nodup_range.filter _
  · intro s hs
    obtain ⟨i, -, hi⟩ := List.mem_filterMap.mp hs
    rw [hid hi, hi]
  · intro i hi hsome
    obtain ⟨s, hs⟩ := Option.isSome_iff_exists.mp hsome
    exact List.mem_map.mpr ⟨s, List.mem_filterMap.mpr ⟨i, List.mem_range.mpr hi, hs⟩, hid hs⟩

section Settles

variable [DecidableEq T]

theorem descends {rank : ∀ t, (S.actor t).Fut → ℕ} (hf : ∀ t, (S.actor t).Finishing (rank t))
    (h : Reachable K prunes r) {l : BrokerLabel S M} (hw : r.works l = true)
    (hst : (system K prunes).step r l = some q) :
    Prod.Lex (· < ·) (· < ·) (q.left, Spawned.totalCost rank q.actors)
      (r.left, Spawned.totalCost rank r.actors) := by
  obtain ⟨es, hs⟩ := step_cases hst
  cases l with
  | actor i t l =>
    -- an actor's step takes nothing from the broker
    cases hs with
    | act i x l s hx hx' ha =>
      have hsilent : x.sys.worksSilent l = true := (Spawned.worksAt_eq hx l).symm.trans hw
      have hleft : left { r with actors := r.actors.set i { x with sys := s } } = r.left := by
        simp [left]
      rw [hleft]
      exact .right _ (Spawned.totalCost_set hf hx hsilent hx')
  | next vs => exact .left _ _ (hs.left h.owning (.inr ⟨vs, rfl⟩))
  | poll => exact .left _ _ (hs.left h.owning (.inl rfl))
  | spawn | post | halt => cases hw

/-! ### Where nothing can go on -/

theorem Reachable.atRest (hW : ∀ t, Nonempty (S.actor t).World) (h : Reachable K prunes r)
    (hq : (system K prunes).Quiet works r) : r.AtRest := by
  have hactors : ∀ x ∈ r.actors, x.sys.AtRest := by
    intro x hx
    obtain ⟨i, hi⟩ := List.mem_iff_getElem?.mp hx
    refine Spawned.Alive.atRest hW (h.owning.alive i x hi) fun l hl => ?_
    have hnone := hq (.actor i x.type l) ((Spawned.worksAt_eq hi l).trans hl)
    obtain ⟨huses, hcancels⟩ := Sys.worksSilent_uses hl
    simpa [system, step, hi, allows, huses, hcancels] using hnone
  refine ⟨hactors, ?_⟩
  have hpoll : r.poll K prunes = none := hq .poll rfl
  by_cases hidle : r.phase = .idle
  · refine .inl ⟨hidle, ?_⟩
    cases hm : r.mailbox with
    | nil => rfl
    | cons msg rest =>
      -- the next message could be taken
      obtain ⟨vs, hvs⟩ := h.owning.enumerates
      have hnone : step K prunes r (.next vs) = none := hq (.next vs) rfl
      cases msg <;> simp [step, hidle, hm, take] at hnone
      exact absurd hvs hnone
  · by_contra hhalt
    have hn : r.phase ≠ .halted [] := fun hp => hhalt (.inr hp)
    obtain ⟨q, hq'⟩ : ∃ q, r.poll K prunes = some q := by
      refine h.owning.progress hidle hn fun i op hsend => ?_
      -- the send that is awaited has returned
      obtain ⟨x, hx, o, ho, hd⟩ := h.awaits i op hsend
      have hlive := (hactors x (List.mem_of_getElem? hx)).returned o (List.mem_of_getElem? ho)
      cases hst : o.state with
      | returned res => simp [returned, hx, ho, hst]
      | dropped => exact absurd hst hd
      | _ => simp [hst, OpState.live] at hlive
    rw [hpoll] at hq'
    cases hq'

/-- Whatever the schedule, the broker and all actors come to rest. -/
theorem settles (hW : ∀ t, Nonempty (S.actor t).World) {rank : ∀ t, (S.actor t).Fut → ℕ}
    (hf : ∀ t, (S.actor t).Finishing (rank t)) (h : Reachable K prunes r) :
    (system K prunes).Inevitably works (fun q => Reachable K prunes q ∧ q.AtRest) r := by
  refine (Machine.inevitably_quiet (WellFounded.prod_lex Nat.lt_wfRel.wf Nat.lt_wfRel.wf)
    (fun q : Broker S M => (q.left, Spawned.totalCost rank q.actors))
    (fun r l q hr _ hst => hr.trans (.single hst))
    (fun r l q hr hw hst => descends hf hr hw hst) h).mono ?_
  exact fun q hq => ⟨hq.1, hq.1.atRest hW hq.2⟩

/-- Everybody who was subscribed when a topic was published, still runs and is still held
has handled it, unless it overran its time. -/
def GotThrough (K : Topic S M) (r : Broker S M) : Prop :=
  ∀ us s vs msg ws, postedMsgs r.trace = us ++ .subscribe s :: vs ++ .publish msg :: ws →
    (∀ s', .unsubscribe s' ∈ vs → s'.id ≠ s.id) → ∀ x, r.actors[s.id]? = some x →
      x.sys.arcs.upgrade .weakSender ≠ none → x.sys.phase.isEnded = false →
        ∃ j, .sent (((us ++ .subscribe s :: vs).filter BrokerMessage.isPublish).length + 1) s.id
          msg j ∈ r.trace ∧ Asked K x msg j ∧ j ∈ concluded x.sys.trace

theorem AtRest.gotThrough (hr : r.AtRest) (h : Reachable K prunes r) (hidle : r.phase = .idle) :
    r.GotThrough K := by
  intro us s vs msg ws hposted hsub x hx hup hend
  have hmailbox : r.mailbox = [] := by
    rcases hr.broker with ⟨-, hm⟩ | hp
    · exact hm
    · rw [hidle] at hp
      cases hp
  have htaken : takenMsgs r.trace = us ++ .subscribe s :: vs ++ .publish msg :: ws := by
    have hfifo := h.fifo.exact (by rw [hidle]; rfl)
    rw [hmailbox, List.append_nil] at hfifo
    rw [← hfifo, hposted]
  obtain ⟨j, hj, res, hres⟩ :=
    h.sent_of_done htaken (.inr hidle) (subscribed_of_subscribe us hsub) hx hup
  obtain ⟨x', hx', hasked⟩ := h.spaced.asked _ _ _ _ hj
  obtain ⟨x'', hx'', hhanded⟩ := h.settled.handed _ _ _ _ hj
  rw [hx, Option.some_inj] at hx' hx''
  subst hx' hx''
  refine ⟨j, hj, hasked, ?_⟩
  obtain ⟨a, c, hreach⟩ := h.owning.alive s.id x hx
  rw [(hr.actors x (List.mem_of_getElem? hx)).handled hend]
  -- the send has not failed: the payload was accepted, for the receiver is still there
  rcases hhanded with ⟨o', ho', hst⟩ | ⟨e, he, rfl⟩ | hrec
  · obtain ⟨o'', ho'', hret⟩ := hreach.enqueued.returned j res hres
    rw [ho', Option.some_inj] at ho''
    rw [ho'', hret] at hst
    simp at hst
  · refine List.mem_filterMap.mpr ⟨e, he, ?_⟩
    simp [Envelope.work?, (hasked.carries ⟨a, c, hreach⟩).payload e he rfl]
  · rw [hreach.receiverHeld, hend] at hrec
    cases hrec

end Settles

end Broker

/-- **Every publish gets through.**  Whoever schedules the broker, the actors and their
operations, all of them come to rest; and if the broker has not ended, everybody who was
subscribed when a topic was published, still runs and is still held has handled it. -/
theorem publish_settles {T M : Type} [DecidableEq T] {S : Program T} {K : Topic S M}
    {prunes : Bool} (hW : ∀ t, Nonempty (S.actor t).World) {rank : ∀ t, (S.actor t).Fut → ℕ}
    (hf : ∀ t, (S.actor t).Finishing (rank t)) {r : Broker S M}
    (h : Broker.Reachable K prunes r) :
    (Broker.system K prunes).Inevitably Broker.works
      (fun q => q.AtRest ∧ (q.phase = .idle → q.GotThrough K)) r :=
  (Broker.settles hW hf h).mono fun _ hq => ⟨hq.2, hq.2.gotThrough hq.1⟩

namespace Patient

def listeners : Program Unit := ⟨fun _ => patient, fun _ => ()⟩

/-- The topic is a number to be added. -/
def numbers : Topic listeners ℕ := ⟨fun _ m => (show ℕ from m)⟩

/-- A patient subscribes and a number is published; nobody has handled anything yet. -/
def publication : List (BrokerLabel listeners ℕ) :=
  [.spawn () plain (0 : ℕ) (), .actor 0 () (.handle (.derive 0 .weakSender)),
    .post (.subscribe ⟨0, 1⟩), .post (.publish 2)]

end Patient

theorem publish_settles_of_publication : ∃ r,
    (Broker.system Patient.numbers true).run (Broker.init _ ℕ) Patient.publication = some r ∧
      r.mailbox.length = 2 ∧ (Broker.system Patient.numbers true).Inevitably Broker.works
        (fun q => q.AtRest ∧ (q.phase = .idle → q.GotThrough Patient.numbers)) r :=
  ⟨_, rfl, rfl, publish_settles (fun _ => ⟨()⟩) (fun _ => Patient.finishing)
    ⟨Patient.publication, rfl⟩⟩

end Hannibal
