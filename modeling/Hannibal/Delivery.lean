/-
Broker delivery.

`Round` follows the handling of one publish: the subscribers that are tried are
those of the map, and what was sent together with what is still to be sent is
what was upgraded.  Publishes are numbered in the order in which they are taken,
and the broker begins no send to a subscriber before the last one has returned
(`Spaced`), so every mailbox gets the topics in that order.  Who counts as upgraded
was upgraded (`Attempted`), and what is sent is the topic, accepted by the
subscriber's mailbox when the send returns `Ok` (`Carries`).

* `broker_contract` — exactly-once delivery, the same order for everybody, and
  nothing changes for a broker that never prunes.
-/
import Hannibal.Pruning
import Hannibal.Requests

open scoped List

namespace Hannibal

/-! ### Reading the trace -/

namespace BrokerEvent

variable {M : Type}

def sent? : BrokerEvent M → Option (ℕ × ℕ × M)
  | .sent n i msg _ => some (n, i, msg)
  | _ => none

def tried? : BrokerEvent M → Option ℕ
  | .upgraded i _ => some i
  | _ => none

def won? : BrokerEvent M → Option ℕ
  | .upgraded i true => some i
  | _ => none

end BrokerEvent

section Reading

variable {M : Type}

/-- What was sent: the number of the publish, the subscriber and the topic. -/
def sends (t : List (BrokerEvent M)) : List (ℕ × ℕ × M) := t.filterMap BrokerEvent.sent?

/-- The subscribers whose weak senders were tried, and those that were upgraded. -/
def tried (t : List (BrokerEvent M)) : List ℕ := t.filterMap BrokerEvent.tried?

def won (t : List (BrokerEvent M)) : List ℕ := t.filterMap BrokerEvent.won?

/-- How many publishes were taken. -/
def publishes (t : List (BrokerEvent M)) : ℕ :=
  ((takenMsgs t).filter BrokerMessage.isPublish).length

/-- The topics that were sent to the actor `i`. -/
def sentTo (i : ℕ) (t : List (BrokerEvent M)) : List M :=
  ((sends t).filter fun x => x.2.1 = i).map fun x => x.2.2

@[simp] theorem sends_append (t u : List (BrokerEvent M)) : sends (t ++ u) = sends t ++ sends u :=
  List.filterMap_append

@[simp] theorem tried_append (t u : List (BrokerEvent M)) : tried (t ++ u) = tried t ++ tried u :=
  List.filterMap_append

@[simp] theorem won_append (t u : List (BrokerEvent M)) : won (t ++ u) = won t ++ won u :=
  List.filterMap_append

@[simp] theorem publishes_append (t u : List (BrokerEvent M)) :
    publishes (t ++ u) = publishes t + publishes u := by
  simp [publishes]

theorem mem_sends {t : List (BrokerEvent M)} {n i : ℕ} {msg : M} :
    (n, i, msg) ∈ sends t ↔ ∃ j, .sent n i msg j ∈ t := by
  rw [sends, List.mem_filterMap]
  constructor
  · rintro ⟨e, he, h⟩
    cases e <;> cases h
    exact ⟨_, he⟩
  · exact fun ⟨j, h⟩ => ⟨_, h, rfl⟩

theorem mem_tried {t : List (BrokerEvent M)} {i : ℕ} :
    i ∈ tried t ↔ ∃ ok, .upgraded i ok ∈ t := by
  rw [tried, List.mem_filterMap]
  constructor
  · rintro ⟨e, he, h⟩
    cases e <;> cases h
    exact ⟨_, he⟩
  · exact fun ⟨ok, h⟩ => ⟨_, h, rfl⟩

theorem mem_won {t : List (BrokerEvent M)} {i : ℕ} : i ∈ won t ↔ .upgraded i true ∈ t := by
  rw [won, List.mem_filterMap]
  constructor
  · rintro ⟨e, he, h⟩
    rcases e with _ | _ | ⟨k, _ | _⟩ | _ | _ | _ <;> cases h
    exact he
  · exact fun h => ⟨_, h, rfl⟩

theorem won_sublist_tried : ∀ t : List (BrokerEvent M), won t <+ tried t := by
  intro t
  induction t with
  | nil => exact .refl _
  | cons e t ih =>
    rcases e with _ | _ | ⟨k, _ | _⟩ | _ | _ | _
    case upgraded.true => exact ih.cons_cons k
    case upgraded.false => exact ih.cons k
    all_goals exact ih

end Reading

namespace BrokerPhase

variable {M : Type}

/-- A publish is being handled. -/
def busy : BrokerPhase M → Bool
  | .idle => false
  | .halted _ => false
  | _ => true

def msg? : BrokerPhase M → Option M
  | .upgrading p _ => some p.msg
  | .sending p _ => some p.msg
  | .awaiting p _ _ _ => some p.msg
  | _ => none

/-- The subscribers that are still to be tried. -/
def untried : BrokerPhase M → List ℕ
  | .upgrading _ todo => todo.map SenderAt.id
  | _ => []

/-- The subscribers that were upgraded and not sent anything yet. -/
def unsent : BrokerPhase M → List ℕ
  | .upgrading p _ => p.live.map SenderAt.id
  | .sending _ todo => todo.map SenderAt.id
  | .awaiting _ _ _ todo => todo.map SenderAt.id
  | _ => []

end BrokerPhase

/-! ### One publish -/

/-- What has been recorded in `ys` since the topic `msg` was taken after `xs`. -/
structure Round {M : Type} (p : BrokerPhase M) (xs : List (BrokerEvent M)) (msg : M)
    (ys : List (BrokerEvent M)) : Prop where
  only : takenMsgs ys = []
  topic : ∀ m, p.msg? = some m → m = msg
  nodup : (tried ys ++ p.untried).Nodup
  listed : ∀ i ∈ tried ys ++ p.untried, subscribed i (takenMsgs xs) = true
  missed : ∀ i, subscribed i (takenMsgs xs) = true → i ∈ tried ys ++ p.untried ∨ .pruned i ∈ xs
  sends : sends ys ++ p.unsent.map (publishes xs + 1, ·, msg) =
    (won ys).map (publishes xs + 1, ·, msg)

namespace Round

variable {M : Type} {p p' : BrokerPhase M} {xs ys : List (BrokerEvent M)} {msg : M}

/-- The handler goes on and records `es`. -/
theorem next (h : Round p xs msg ys) {es : List (BrokerEvent M)} (htaken : takenMsgs es = [])
    (hmsg : ∀ m, p'.msg? = some m → p.msg? = some m) (htried : tried es ++ p'.untried = p.untried)
    (hsends : Hannibal.sends es ++ p'.unsent.map (publishes xs + 1, ·, msg) =
      (p.unsent ++ won es).map (publishes xs + 1, ·, msg)) : Round p' xs msg (ys ++ es) := by
  have hall : tried (ys ++ es) ++ p'.untried = tried ys ++ p.untried := by
    rw [tried_append, List.append_assoc, htried]
  refine ⟨?_, fun m hm => h.topic m (hmsg m hm), hall ▸ h.nodup, hall ▸ h.listed,
    hall ▸ h.missed, ?_⟩
  · rw [takenMsgs_append, h.only, htaken, List.nil_append]
  · rw [sends_append, won_append, List.append_assoc, hsends, List.map_append, List.map_append,
      ← List.append_assoc, h.sends]

/-- The publish counts itself. -/
theorem published (h : Round p xs msg ys) :
    publishes (xs ++ .taken (.publish msg) :: ys) = publishes xs + 1 := by
  have hys : takenMsgs (.taken (.publish msg) :: ys) = [.publish msg] := congrArg (_ :: ·) h.only
  rw [publishes_append, publishes, publishes, hys]
  rfl

theorem won_nodup (h : Round p xs msg ys) : (won ys).Nodup :=
  (List.nodup_append'.mp h.nodup).1.sublist (won_sublist_tried ys)

/-- Who is still to be sent the topic has not been sent it. -/
theorem fresh (h : Round p xs msg ys) {i : ℕ} (hi : i ∈ p.unsent) (n : ℕ) (m : M) :
    (n, i, m) ∉ Hannibal.sends ys := by
  intro hm
  have hnodup := h.won_nodup
  have hids : (Hannibal.sends ys).map (fun x => x.2.1) ++ p.unsent = won ys := by
    have := congrArg (List.map fun x : ℕ × ℕ × M => x.2.1) h.sends
    simpa [Function.comp_def] using this
  rw [← hids] at hnodup
  exact (List.nodup_append'.mp hnodup).2.2 (List.mem_map.mpr ⟨_, hm, rfl⟩) hi

/-- Everybody who was upgraded is sent the topic once. -/
theorem sentTo (h : Round p xs msg ys) (hu : p.unsent = []) (i : ℕ) :
    Hannibal.sentTo i ys = if i ∈ won ys then [msg] else [] := by
  have hs := h.sends
  rw [hu, List.map_nil, List.append_nil] at hs
  have hnodup := h.won_nodup
  rw [Hannibal.sentTo, hs, List.filter_map, List.map_map]
  rw [show ((fun x : ℕ × ℕ × M => decide (x.2.1 = i)) ∘ fun k => (publishes xs + 1, k, msg)) =
    fun k => decide (k = i) from rfl]
  by_cases hi : i ∈ won ys
  · rw [if_pos hi, List.filter_eq, List.count_eq_one_of_mem hnodup hi]
    rfl
  · rw [if_neg hi, List.filter_eq, List.count_eq_zero_of_not_mem hi]
    rfl

end Round

namespace Broker

variable {T M : Type} {S : Program T} {K : Topic S M} {prunes : Bool} {r q : Broker S M}

theorem published_eq (r : Broker S M) : r.published = publishes r.trace := rfl

/-- While a publish is handled its round is open; every publish that was handled
had one. -/
structure Rounds (r : Broker S M) : Prop where
  current : r.phase.busy = true → ∃ xs msg ys, r.trace = xs ++ .taken (.publish msg) :: ys ∧
    Round r.phase xs msg ys
  closed : ∀ xs msg ys zs, r.trace = xs ++ .taken (.publish msg) :: (ys ++ .finished :: zs) →
    takenMsgs ys = [] → Round .idle xs msg ys

namespace Rounds

theorem init (S : Program T) (M : Type) : (Broker.init S M).Rounds where
  current hb := by cases hb
  closed xs msg ys zs hsplit := by
    have hlen := congrArg List.length hsplit
    simp [Broker.init] at hlen

/-- A step at which no publish ends. -/
theorem next (h : r.Rounds) {es : List (BrokerEvent M)} (ht : q.trace = r.trace ++ es)
    (hfin : .finished ∉ es)
    (hcur : q.phase.busy = true → ∃ xs msg ys, r.trace ++ es = xs ++ .taken (.publish msg) :: ys ∧
      Round q.phase xs msg ys) : q.Rounds := by
  refine ⟨ht ▸ hcur, fun xs msg ys zs hsplit hys => ?_⟩
  rw [ht, ← List.cons_append, ← List.append_assoc] at hsplit
  rcases split_append hsplit with ⟨zs', hr, -⟩ | ⟨r', hes, -⟩
  · refine h.closed xs msg ys zs' ?_ hys
    rw [hr, List.append_assoc, List.cons_append]
  · exact absurd (hes ▸ List.mem_append_right _ List.mem_cons_self) hfin

/-- The handler goes on within its publish. -/
theorem goes (h : r.Rounds) {es : List (BrokerEvent M)} (ht : q.trace = r.trace ++ es)
    (hfin : .finished ∉ es) (htaken : takenMsgs es = []) (hb : r.phase.busy = true)
    (hmsg : ∀ m, q.phase.msg? = some m → r.phase.msg? = some m)
    (htried : tried es ++ q.phase.untried = r.phase.untried)
    (hsends : ∀ msg, (∀ m, r.phase.msg? = some m → m = msg) →
      sends es ++ q.phase.unsent.map (r.published, ·, msg) =
        (r.phase.unsent ++ won es).map (r.published, ·, msg)) : q.Rounds := by
  obtain ⟨xs, msg, ys, hr, hround⟩ := h.current hb
  refine h.next ht hfin fun _ => ⟨xs, msg, ys ++ es, ?_, hround.next htaken hmsg htried ?_⟩
  · rw [hr, List.append_assoc, List.cons_append]
  · have := hsends msg hround.topic
    rwa [published_eq, hr, hround.published] at this

/-- ... and neither sends nor upgrades anything. -/
theorem quiet (h : r.Rounds) {es : List (BrokerEvent M)} (ht : q.trace = r.trace ++ es)
    (hfin : .finished ∉ es) (htaken : takenMsgs es = []) (hs : sends es = []) (hw : won es = [])
    (hmsg : ∀ m, q.phase.msg? = some m → r.phase.msg? = some m)
    (htried : tried es ++ q.phase.untried = r.phase.untried)
    (hunsent : q.phase.unsent = r.phase.unsent) (hb : q.phase.busy = r.phase.busy) : q.Rounds := by
  by_cases hbusy : r.phase.busy = true
  · refine h.goes ht hfin htaken hbusy hmsg htried fun msg _ => ?_
    rw [hs, hw, hunsent, List.nil_append, List.append_nil]
  · exact h.next ht hfin fun hb' => absurd (hb ▸ hb') hbusy

theorem step (h : r.Rounds) (ho : r.Owning) (hl : r.Listed) {l : BrokerLabel S M}
    {es : List (BrokerEvent M)} (hs : BrokerStep K prunes r l es q) : q.Rounds := by
  have ht := hs.trace
  cases hs with
  | spawn t E a c => exact h.quiet ht (by simp) rfl rfl rfl (fun _ hm => hm) rfl rfl rfl
  | act i x l s hx hs ha => exact h.quiet ht (by simp) rfl rfl rfl (fun _ hm => hm) rfl rfl rfl
  | post msg ha hp => exact h.quiet ht (by simp) rfl rfl rfl (fun _ hm => hm) rfl rfl rfl
  | publish msg rest vs hp hm hv =>
    refine h.next ht (by simp) fun _ => ⟨r.trace, msg, [], rfl, ?_⟩
    refine ⟨rfl, fun m hm => (Option.some_inj.mp hm).symm, hv.1, fun i hi => ?_,
      fun i hi => ?_, rfl⟩
    · obtain ⟨s, hs, rfl⟩ := List.mem_map.mp hi
      exact hl.subscribed _ (by simp [hv.2.1 s hs])
    · refine (hl.missing i hi).imp_left fun hn => ?_
      obtain ⟨s, hs⟩ := Option.ne_none_iff_exists'.mp hn
      exact hv.2.2 i (ho.lt_length hs) (by simp [hs])
  | subscribe s rest vs hp hm =>
    exact h.next ht (by simp) fun hb => by simp [record, hp, BrokerPhase.busy] at hb
  | unsubscribe s rest vs hp hm =>
    exact h.next ht (by simp) fun hb => by simp [record, hp, BrokerPhase.busy] at hb
  | ping k rest vs hp hm =>
    exact h.next ht (by simp) fun hb => by simp [record, hp, BrokerPhase.busy] at hb
  | upgrade p s todo hp hu =>
    refine h.goes ht (by simp) rfl (by rw [hp]; rfl) (fun m hm => hp ▸ hm) (by rw [hp]; rfl)
      fun msg hmsg => ?_
    rw [hp]
    show List.map _ ((p.live ++ [_]).map SenderAt.id) = _
    rw [List.map_append]
    rfl
  | send p s todo x t hp hx htx =>
    refine h.goes ht (by simp) rfl (by rw [hp]; rfl) (fun m hm => hp ▸ hm) (by rw [hp]; rfl)
      fun msg hmsg => ?_
    obtain rfl := hmsg p.msg (by rw [hp]; rfl)
    rw [hp]
    show _ = List.map _ (s.id :: todo.map SenderAt.id ++ [])
    rw [List.append_nil]
    rfl
  | fail p s todo hp hu | collect p hp | «return» p i op todo hp hr =>
    exact h.quiet ht (by simp) rfl rfl rfl (fun m hm => hp ▸ hm) (by rw [hp]; rfl) (by rw [hp]; rfl)
      (by rw [hp]; rfl)
  | sent p hp =>
    refine h.quiet ht (by simp) rfl rfl rfl (fun m hm => ?_) ?_ ?_ ?_
    · change (if prunes then BrokerPhase.retaining p p.values else .dropping p.live).msg? = _ at hm
      split at hm <;> cases hm
    all_goals
      rw [hp]
      cases prunes <;> rfl
  | keep p s todo hp hu | prune p s todo hp hu | retained p hp | drop s todo hp =>
    exact h.quiet ht (by simp) rfl rfl rfl (fun m hm => by cases hm) (by rw [hp]; rfl)
      (by rw [hp]; rfl) (by rw [hp]; rfl)
  | finish hp =>
    obtain ⟨xs, msg, ys, hr, hround⟩ := h.current (by rw [hp]; rfl)
    refine ⟨fun hb => (by cases hb), fun xs' msg' ys' zs hsplit hys => ?_⟩
    rw [ht, ← List.cons_append, ← List.append_assoc] at hsplit
    rcases split_append hsplit with ⟨zs', hr', -⟩ | ⟨r', hes, hr'⟩
    · exact h.closed xs' msg' ys' zs' (by rw [hr', List.append_assoc, List.cons_append]) hys
    · -- the publish that ends is the last one that was taken
      obtain ⟨rfl, rfl⟩ : r' = [] ∧ zs = [] := by
        rcases r' with _ | ⟨e, r'⟩ <;> simp at hes
        exact ⟨rfl, hes⟩
      rw [List.append_nil, hr] at hr'
      obtain ⟨rfl, he, rfl⟩ := split_at_last (p := fun e : BrokerEvent M => e.taken? ≠ none) hr'
        (fun h => by cases h) (fun h => by cases h)
        (fun e he hn => hn (List.filterMap_eq_nil_iff.mp hys e he))
        fun e he hn => hn (List.filterMap_eq_nil_iff.mp hround.only e he)
      cases he
      rw [hp] at hround
      exact ⟨hround.only, fun m hm => (by cases hm), hround.nodup, hround.listed, hround.missed,
        hround.sends⟩
  | halt hp => exact h.next ht (by simp) fun hb => by cases hb
  | unhand s todo hp => exact h.next ht (by simp) fun hb => by cases hb

end Rounds

/-- While the subscribers are tried nothing of the publish has been sent yet. -/
def Early (r : Broker S M) : Prop :=
  ∀ p todo, r.phase = .upgrading p todo → ∀ xs msg ys,
    r.trace = xs ++ .taken (.publish msg) :: ys → takenMsgs ys = [] → sends ys = []

theorem Early.step (h : r.Early) {l : BrokerLabel S M} {es : List (BrokerEvent M)}
    (hs : BrokerStep K prunes r l es q) : q.Early := by
  have ht := hs.trace
  -- a step at which no message is taken and nothing is sent
  have hnext : (∀ p todo, q.phase = .upgrading p todo → ∃ p' todo',
      r.phase = .upgrading p' todo') → takenMsgs es = [] → sends es = [] → q.Early := by
    intro hphase htaken hsends p todo hq xs msg ys hsplit hys
    obtain ⟨p', todo', hp⟩ := hphase p todo hq
    rw [ht] at hsplit
    rcases split_append hsplit with ⟨zs, hr, rfl⟩ | ⟨zs, rfl, -⟩
    · rw [takenMsgs_append, htaken, List.append_nil] at hys
      rw [sends_append, hsends, List.append_nil]
      exact h p' todo' hp xs msg zs hr hys
    · simp [takenMsgs, BrokerEvent.taken?] at htaken
  cases hs with
  | spawn | act | post => exact hnext (fun p todo hq => ⟨p, todo, hq⟩) rfl rfl
  | upgrade p s todo hp | fail p s todo hp => exact hnext (fun _ _ _ => ⟨_, _, hp⟩) rfl rfl
  | publish msg rest vs hp hm hv =>
    intro p todo hq xs msg' ys hsplit hys
    rw [ht] at hsplit
    rcases split_append hsplit with ⟨zs, -, rfl⟩ | ⟨zs, he, -⟩
    · simp [takenMsgs, BrokerEvent.taken?] at hys
    · rcases zs with _ | ⟨z, zs⟩ <;> simp at he
      rw [he.2]
      rfl
  | subscribe s rest vs hp | unsubscribe s rest vs hp | ping k rest vs hp =>
    intro p todo hq
    cases hp.symm.trans hq
  | sent p hp =>
    intro p' todo hq
    cases prunes <;> cases hq
  | _ =>
    intro p todo hq
    cases hq

/-! ### One subscriber after the other -/

/-- The operation `j` of the actor sends the topic. -/
def Asked (K : Topic S M) (x : Spawned S) (msg : M) (j : ℕ) : Prop :=
  ∃ o, x.sys.ops[j]? = some o ∧ o.method = .send (K.message x.type msg)

def HasReturned (x : Spawned S) (j : ℕ) : Prop := ∃ res, .returned j res ∈ x.sys.trace

/-- The operation `j` carries the topic: what it pushes, once at most, is a task for the topic's
handler, and nothing else runs for it; if it returned `Ok` it has pushed, and else it was
refused and nothing entered the mailbox. -/
structure Carries (K : Topic S M) (x : Spawned S) (msg : M) (j : ℕ) : Prop where
  asked : Asked K x msg j
  payload : ∀ e ∈ accepted x.sys.trace, e.id = j →
    e.payload = .task (.send (K.message x.type msg))
  once : ((accepted x.sys.trace).map Envelope.id).count j ≤ 1
  ran : ∀ reply, .completed j reply ∈ x.sys.trace →
    Ran x.sys.trace j (.send (K.message x.type msg)) reply
  outcome : ∀ res, .returned j res ∈ x.sys.trace →
    res = .ok none ∧ (∃ e ∈ accepted x.sys.trace, e.id = j) ∨
      (∃ err, res = .error err) ∧ ∀ e ∈ accepted x.sys.trace, e.id ≠ j

theorem Asked.carries {x : Spawned S} {msg : M} {j : ℕ} (h : Asked K x msg j) (hx : x.Alive) :
    Carries K x msg j := by
  obtain ⟨o, ho, hm⟩ := h
  obtain ⟨a, c, hreach⟩ := hx
  have hf : o.method.payload = .task (.send (K.message x.type msg)) := by
    rw [hm]
    rfl
  refine ⟨⟨o, ho, hm⟩, fun e he hid => ?_, ?_, fun reply hc => hreach.ran ho hf hc,
    fun res hret => hreach.plain ho (by rw [hm]; rfl) hret⟩
  · obtain ⟨o', ho', hpay, -⟩ := hreach.enqueued.op e he
    rw [hid, ho, Option.some_inj] at ho'
    rw [hpay, ← ho', hf]
  · exact List.nodup_iff_count_le_one.mp hreach.enqueued.nodup j

/-- The operation `j` returned before `j'` began. -/
def Apart (x : Spawned S) (j j' : ℕ) : Prop := ∃ res, [.returned j res, .began j'] <+ x.sys.trace

section Leads

variable {x y : Spawned S}

theorem Asked.leads {msg : M} {j : ℕ} (h : Asked K x msg j) (hx : x.Alive) (hxy : x.Leads y) :
    Asked K y msg j := by
  obtain ⟨o, ho, hm⟩ := h
  obtain ⟨s, rfl, o', ho', hm'⟩ := hxy.op hx ho
  exact ⟨o', ho', hm'.trans hm⟩

theorem HasReturned.leads {j : ℕ} (h : HasReturned x j) (hx : x.Alive) (hxy : x.Leads y) :
    HasReturned y j := by
  obtain ⟨res, hres⟩ := h
  obtain ⟨s, rfl, hs⟩ := hxy.trace hx
  exact ⟨res, hs.subset hres⟩

theorem Apart.leads {j j' : ℕ} (h : Apart x j j') (hx : x.Alive) (hxy : x.Leads y) :
    Apart y j j' := by
  obtain ⟨res, hres⟩ := h
  obtain ⟨s, rfl, hs⟩ := hxy.trace hx
  exact ⟨res, hres.trans hs.sublist⟩

end Leads

/-- The publishes are numbered as they were taken; every send but the one that is
awaited has returned, and it had before the next one to that subscriber began. -/
structure Spaced (K : Topic S M) (r : Broker S M) : Prop where
  number : ∀ xs ys, r.trace = xs ++ ys → ∀ n i msg j, .sent n i msg j ∈ xs → n ≤ publishes xs
  asked : ∀ n i msg j, .sent n i msg j ∈ r.trace → ∃ x, r.actors[i]? = some x ∧ Asked K x msg j
  returned : ∀ n i msg j, .sent n i msg j ∈ r.trace → r.phase.isHalted = false →
    r.phase.send? ≠ some (i, j) → ∃ x, r.actors[i]? = some x ∧ HasReturned x j
  apart : ∀ n n' i msg msg' j j', [.sent n i msg j, .sent n' i msg' j'] <+ r.trace →
    n < n' ∧ ∃ x, r.actors[i]? = some x ∧ Apart x j j'

namespace Spaced

theorem init (S : Program T) (K : Topic S M) : (Broker.init S M).Spaced K where
  number xs ys h n i msg j hm := by
    rw [show xs = [] from (List.append_eq_nil_iff.mp h.symm).1] at hm
    cases hm
  asked := nofun
  returned := nofun
  apart n n' i msg msg' j j' h := by cases h

/-- A step that begins no send. -/
theorem next (h : r.Spaced K) (ho : r.Owning) {es : List (BrokerEvent M)}
    (hl : Spawned.Later (fun _ _ => False) r.actors q.actors) (ht : q.trace = r.trace ++ es)
    (hes : sends es = [])
    (hphase : q.phase.isHalted = false → r.phase.isHalted = false ∧ ∀ i j,
      r.phase.send? = some (i, j) → q.phase.send? = some (i, j) ∨
        ∃ x, r.actors[i]? = some x ∧ HasReturned x j) : q.Spaced K := by
  have hno : ∀ n i msg j, .sent n i msg j ∉ es := fun n i msg j hm => by
    have := mem_sends.mpr ⟨j, hm⟩
    rw [hes] at this
    cases this
  have hold : ∀ n i msg j, .sent n i msg j ∈ q.trace → .sent n i msg j ∈ r.trace := by
    intro n i msg j hm
    rw [ht, List.mem_append] at hm
    exact hm.resolve_right (hno n i msg j)
  refine ⟨fun xs ys hsplit n i msg j hm => ?_, fun n i msg j hm => ?_,
    fun n i msg j hm hh hne => ?_, fun n n' i msg msg' j j' hp => ?_⟩
  · rw [ht] at hsplit
    rcases List.append_eq_append_iff.mp hsplit with ⟨zs, rfl, hzs⟩ | ⟨zs, hr, -⟩
    · rw [List.mem_append] at hm
      have hmem := hm.resolve_right fun hm => hno n i msg j (hzs ▸ List.mem_append_left _ hm)
      have := h.number r.trace [] (List.append_nil _).symm n i msg j hmem
      rw [publishes_append]
      omega
    · exact h.number xs zs hr n i msg j hm
  · obtain ⟨x, hx, hxa⟩ := h.asked n i msg j (hold n i msg j hm)
    obtain ⟨y, hy, hxy⟩ := hl.actor i x hx
    exact ⟨y, hy, hxa.leads (ho.alive i x hx) hxy⟩
  · obtain ⟨hh', hsend⟩ := hphase hh
    have hret : ∃ x, r.actors[i]? = some x ∧ HasReturned x j := by
      by_cases hs : r.phase.send? = some (i, j)
      · exact (hsend i j hs).resolve_left hne
      · exact h.returned n i msg j (hold n i msg j hm) hh' hs
    obtain ⟨x, hx, hxr⟩ := hret
    obtain ⟨y, hy, hxy⟩ := hl.actor i x hx
    exact ⟨y, hy, hxr.leads (ho.alive i x hx) hxy⟩
  · rw [ht, pair_sublist_append] at hp
    have hpr : [.sent n i msg j, .sent n' i msg' j'] <+ r.trace := by
      rcases hp with hp | hp | ⟨-, hp⟩
      · exact hp
      · exact absurd (hp.subset List.mem_cons_self) (hno _ _ _ _)
      · exact absurd hp (hno _ _ _ _)
    obtain ⟨hn, x, hx, hxa⟩ := h.apart n n' i msg msg' j j' hpr
    obtain ⟨y, hy, hxy⟩ := hl.actor i x hx
    exact ⟨hn, y, hy, hxa.leads (ho.alive i x hx) hxy⟩

/-- The send that is awaited has returned. -/
theorem hasReturned (ho : r.Owning) {i j : ℕ} (hr : r.returned i j = true) :
    ∃ x, r.actors[i]? = some x ∧ HasReturned x j := by
  unfold Broker.returned at hr
  split at hr
  · next x hx =>
    split at hr
    · next o hj =>
      split at hr
      · next res hst =>
        obtain ⟨a, c, hreach⟩ := ho.alive i x hx
        exact ⟨x, hx, res, hreach.recorded j o res hj hst⟩
      · cases hr
    · cases hr
  · cases hr

/-- The next send begins. -/
theorem send (h : r.Spaced K) (ho : r.Owning) (hround : r.Rounds) {p : Publishing M} {s : SenderAt}
    {todo : List SenderAt} {x : Spawned S} {t : Sys (S.actor x.type)}
    (hp : r.phase = .sending p (s :: todo)) (hx : r.actors[s.id]? = some x)
    (ht : x.env.step x.sys (.op (.begin (.send (K.message x.type p.msg)) s.handle)) = some t) :
    (({ r with
      actors := r.actors.set s.id { x with sys := t }
      phase := .awaiting p s.id x.sys.ops.length todo }).record
        [.sent r.published s.id p.msg x.sys.ops.length]).Spaced K := by
  have hl : Spawned.Later (fun _ _ => False) r.actors (r.actors.set s.id { x with sys := t }) :=
    .set hx (.of_step ht) nofun
  have hself : (r.actors.set s.id { x with sys := t })[s.id]? = some { x with sys := t } :=
    List.getElem?_set_self (List.getElem?_eq_some_iff.mp hx).1
  obtain ⟨o, hom, hops, es, htr⟩ := Environment.step_begin ht
  have hhalt : r.phase.isHalted = false := by rw [hp]; rfl
  -- every earlier send has returned, so it stands apart from the new one
  have hret : ∀ n i msg j, .sent n i msg j ∈ r.trace → ∃ y,
      (r.actors.set s.id { x with sys := t })[i]? = some y ∧ HasReturned y j ∧
        (i = s.id → Apart y j x.sys.ops.length) := by
    intro n i msg j hm
    obtain ⟨y, hy, hyr⟩ := h.returned n i msg j hm hhalt (by rw [hp]; nofun)
    by_cases hi : i = s.id
    · subst hi
      rw [hx, Option.some_inj] at hy
      subst hy
      refine ⟨_, hself, hyr.leads (ho.alive _ x hx) (.of_step ht), fun _ => ?_⟩
      obtain ⟨res, hres⟩ := hyr
      refine ⟨res, ?_⟩
      show _ <+ t.trace
      rw [htr]
      exact pair_sublist_append.mpr (.inr (.inr ⟨hres, List.mem_cons_self⟩))
    · exact ⟨y, (List.getElem?_set_ne (Ne.symm hi)).trans hy, hyr, fun hi' => absurd hi' hi⟩
  -- nobody who is still to be sent the topic has been sent it before
  have hlt : ∀ n msg j, .sent n s.id msg j ∈ r.trace → n < r.published := by
    intro n msg j hm
    obtain ⟨xs, topic, ys, hr, hro⟩ := hround.current (by rw [hp]; rfl)
    rw [published_eq, hr, hro.published]
    rw [hr, List.mem_append, List.mem_cons] at hm
    rcases hm with hm | hm | hm
    · have := h.number xs _ hr n s.id msg j hm
      omega
    · cases hm
    · exact absurd (mem_sends.mpr ⟨j, hm⟩) (hro.fresh (by rw [hp]; exact List.mem_cons_self) n msg)
  refine ⟨fun xs ys hsplit n i msg j hm => ?_, fun n i msg j hm => ?_, fun n i msg j hm _ hne => ?_,
    fun n n' i msg msg' j j' hpair => ?_⟩
  · rcases List.append_eq_append_iff.mp hsplit with ⟨zs, rfl, hzs⟩ | ⟨zs, hr, -⟩
    · rw [publishes_append]
      show n ≤ publishes r.trace + publishes zs
      rcases List.mem_append.mp hm with hm | hm
      · have := h.number r.trace [] (List.append_nil _).symm n i msg j hm
        omega
      · have hnew : BrokerEvent.sent n i msg j ∈ [_] := hzs ▸ List.mem_append_left ys hm
        cases List.mem_singleton.mp hnew
        rw [published_eq]
        omega
    · exact h.number xs zs hr n i msg j hm
  · rcases List.mem_append.mp hm with hm | hm
    · obtain ⟨y, hy, hya⟩ := h.asked n i msg j hm
      obtain ⟨z, hz, hyz⟩ := hl.actor i y hy
      exact ⟨z, hz, hya.leads (ho.alive i y hy) hyz⟩
    · cases List.mem_singleton.mp hm
      refine ⟨_, hself, o, ?_, hom⟩
      show t.ops[_]? = _
      rw [hops, List.getElem?_concat_length]
  · rcases List.mem_append.mp hm with hm | hm
    · obtain ⟨y, hy, hyr, -⟩ := hret n i msg j hm
      exact ⟨y, hy, hyr⟩
    · cases List.mem_singleton.mp hm
      exact absurd rfl hne
  · rcases pair_sublist_append.mp hpair with hpair | hpair | ⟨hm, hm'⟩
    · obtain ⟨hn, y, hy, hya⟩ := h.apart n n' i msg msg' j j' hpair
      obtain ⟨z, hz, hyz⟩ := hl.actor i y hy
      exact ⟨hn, z, hz, hya.leads (ho.alive i y hy) hyz⟩
    · exact absurd hpair.length_le (by simp)
    · cases List.mem_singleton.mp hm'
      obtain ⟨y, hy, -, hya⟩ := hret n s.id msg j hm
      exact ⟨hlt n msg j hm, y, hy, hya rfl⟩

theorem step (h : r.Spaced K) (ho : r.Owning) (hround : r.Rounds) {l : BrokerLabel S M}
    {es : List (BrokerEvent M)} (hs : BrokerStep K prunes r l es q) : q.Spaced K := by
  have ht := hs.trace
  have hl := hs.later
  cases hs with
  | send p s todo x t hp hx htx => exact h.send ho hround hp hx htx
  | «return» p i op todo hp hr =>
    refine h.next ho hl ht rfl fun _ => ⟨by rw [hp]; rfl, fun i' j' hs => ?_⟩
    rw [hp] at hs
    cases hs
    exact .inr (hasReturned ho hr)
  | spawn t E a c | act i x l s hx hs ha | post msg ha hp =>
    exact h.next ho hl ht rfl fun hh => ⟨hh, fun _ _ hs => .inl hs⟩
  | halt hp => exact h.next ho hl ht rfl fun hh => by cases hh
  | unhand s todo hp => exact h.next ho hl ht rfl fun hh => by cases hh
  | _ =>
    exact h.next ho hl ht rfl fun _ => ⟨by simp [*, BrokerPhase.isHalted], fun _ _ hs => by
      simp [*, BrokerPhase.send?] at hs⟩

end Spaced

/-- A poll on the way to `r`, in a state with the trace `xs`, has tried the weak sender of the
actor `i`, and `WeakSender::upgrade` gave a sender there if `ok` says so. -/
def Attempted [DecidableEq T] (K : Topic S M) (prunes : Bool) (r : Broker S M)
    (xs : List (BrokerEvent M)) (i : ℕ) (ok : Bool) : Prop :=
  ∃ u v p s todo, Reachable K prunes u ∧ u.trace = xs ∧ u.phase = .upgrading p (s :: todo) ∧
    s.id = i ∧ u.upgrades i = ok ∧ u.poll K prunes = some v ∧ (system K prunes).Reaches v r

namespace Reachable

variable [DecidableEq T]

theorem rounds (h : Reachable K prunes r) : r.Rounds :=
  (h.induction (.init S M) fun _ _ _ _ ho hl hr hs => hr.step ho hl hs).2.2

theorem spaced (h : Reachable K prunes r) : r.Spaced K :=
  (h.induction (P := fun r => r.Rounds ∧ r.Spaced K)
    ⟨.init S M, .init S K⟩
    fun _ _ _ _ ho hl hr hs => ⟨hr.1.step ho hl hs, hr.2.step ho hr.1 hs⟩).2.2.2

/-- The subscribers of a publish are tried before anything of it is sent. -/
theorem tried_first (h : Reachable K prunes r) {xs ys zs : List (BrokerEvent M)} {msg : M} {i : ℕ}
    {ok : Bool} (hr : r.trace = xs ++ .taken (.publish msg) :: (ys ++ .upgraded i ok :: zs))
    (hys : takenMsgs ys = []) : sends ys = [] := by
  rw [← List.cons_append, ← List.append_assoc] at hr
  obtain ⟨u, l, v, hu, hxs, -, hs, -⟩ := h.recorded hr
  have hearly : u.Early :=
    (hu.induction (P := Early) nofun fun _ _ _ _ _ _ hr hs => hr.step hs).2.2
  cases hs with
  | upgrade p s todo hp | fail p s todo hp => exact hearly p _ hp xs msg ys hxs hys

/-- When a publish is done everything that was sent so far has returned. -/
theorem sent_returned (h : Reachable K prunes r) {xs ys : List (BrokerEvent M)}
    (hr : r.trace = xs ++ .finished :: ys) {n i j : ℕ} {msg : M} (hs : .sent n i msg j ∈ xs) :
    ∃ x, r.actors[i]? = some x ∧ HasReturned x j := by
  obtain ⟨u, l, v, hu, rfl, hst, hfin, hv⟩ := h.recorded hr
  cases hfin with
  | finish hp =>
    obtain ⟨x, hx, hret⟩ := hu.spaced.returned n i msg j hs (by rw [hp]; rfl)
      (by simp [hp, BrokerPhase.send?])
    obtain ⟨y, hy, hxy⟩ := (reaches_later (.trans (.single hst) hv)).actor i x hx
    exact ⟨y, hy, hret.leads (hu.owning.alive i x hx) hxy⟩

/-- Who counts as upgraded was upgraded. -/
theorem attempted (h : Reachable K prunes r) {xs ys : List (BrokerEvent M)} {i : ℕ} {ok : Bool}
    (hr : r.trace = xs ++ .upgraded i ok :: ys) : Attempted K prunes r xs i ok := by
  obtain ⟨u, l, v, hu, hxs, hst, hup, hv⟩ := h.recorded hr
  cases hup with
  | upgrade p s todo hp hok => exact ⟨u, _, p, s, todo, hu, hxs, hp, rfl, hok, hst, hv⟩
  | fail p s todo hp hok => exact ⟨u, _, p, s, todo, hu, hxs, hp, rfl, hok, hst, hv⟩

end Reachable

/-! ### The contract -/

/-- The actor `i` began to handle the publish `n`. -/
def Got (r : Broker S M) (i n : ℕ) : Prop :=
  ∃ x msg j, r.actors[i]? = some x ∧ .sent n i msg j ∈ r.trace ∧ j ∈ begun x.sys.trace

/-- ... before the publish `n'`. -/
def GotBefore (r : Broker S M) (i n n' : ℕ) : Prop :=
  ∃ x msg msg' j j', r.actors[i]? = some x ∧ .sent n i msg j ∈ r.trace ∧
    .sent n' i msg' j' ∈ r.trace ∧ [j, j'] <+ begun x.sys.trace

theorem Spaced.got_before (h : r.Spaced K) (ho : r.Owning) {i n n' : ℕ} (hi : r.Got i n)
    (hi' : r.Got i n') (hn : n < n') : r.GotBefore i n n' := by
  obtain ⟨x, msg, j, hx, hs, hb⟩ := hi
  obtain ⟨y, msg', j', hy, hs', hb'⟩ := hi'
  rw [hx, Option.some_inj] at hy
  subst hy
  have hne : BrokerEvent.sent n i msg j ≠ .sent n' i msg' j' := by
    intro he
    cases he
    omega
  rcases pair_of_mem hs hs' hne with hp | hp
  · obtain ⟨-, y, hy, res, hap⟩ := h.apart n n' i msg msg' j j' hp
    rw [hx, Option.some_inj] at hy
    subst hy
    obtain ⟨a, c, hreach⟩ := ho.alive i x hx
    exact ⟨x, msg, msg', j, j', hx, hs, hs', hreach.begun_in_order hb hb' hap⟩
  · have := (h.apart n' n i msg' msg j' j hp).1
    omega

/-- The order of handling is the order of the publishes. -/
theorem Spaced.got_before_iff (h : r.Spaced K) (ho : r.Owning) {i n n' : ℕ} (hi : r.Got i n)
    (hi' : r.Got i n') : r.GotBefore i n n' ↔ n < n' := by
  refine ⟨fun hb => ?_, h.got_before ho hi hi'⟩
  obtain ⟨x, msg, msg', j, j', hx, hs, hs', hjj⟩ := hb
  obtain ⟨a, c, hreach⟩ := ho.alive i x hx
  have hnodup := hreach.begun_nodup
  have hne : BrokerEvent.sent n i msg j ≠ .sent n' i msg' j' := by
    intro he
    cases he
    exact List.nodup_iff_sublist.mp hnodup j hjj
  rcases pair_of_mem hs hs' hne with hp | hp
  · exact (h.apart n n' i msg msg' j j' hp).1
  · -- then the two began the other way round
    obtain ⟨-, y, hy, res, hap⟩ := h.apart n' n i msg' msg j' j hp
    rw [hx, Option.some_inj] at hy
    subst hy
    obtain ⟨hj, hj'⟩ := mem_of_pair hjj
    have hback := hreach.begun_in_order hj' hj hap
    exact absurd hback (not_pair_of_nodup hnodup hjj)

/-- What publishers and subscribers may rely on. -/
structure BrokerContract (K : Topic S M) [DecidableEq T] (r : Broker S M) : Prop where
  /-- When a publish has been handled, its topic was sent once to everybody who was
  subscribed when it was taken and whose weak sender was upgraded for it, ... -/
  delivered : ∀ xs msg ys zs, r.trace = xs ++ .taken (.publish msg) :: (ys ++ .finished :: zs) →
    takenMsgs ys = [] → ∀ i, sentTo i ys =
      if subscribed i (takenMsgs xs) = true ∧ i ∈ won ys then [msg] else []
  /-- ... each of them was tried once, unless it had been pruned before, ... -/
  tried : ∀ xs msg ys zs, r.trace = xs ++ .taken (.publish msg) :: (ys ++ .finished :: zs) →
    takenMsgs ys = [] → (tried ys).Nodup ∧
      ∀ i, subscribed i (takenMsgs xs) = true → i ∈ Hannibal.tried ys ∨ .pruned i ∈ xs
  /-- ... and who was pruned cannot be upgraded any more. -/
  gone : ∀ i, .pruned i ∈ r.trace → r.upgrades i = false
  /-- They are tried before anything is sent, and what counts as upgraded is what
  `WeakSender::upgrade` gave then. -/
  first : ∀ xs msg ys i ok zs,
    r.trace = xs ++ .taken (.publish msg) :: (ys ++ .upgraded i ok :: zs) →
      takenMsgs ys = [] → sends ys = []
  upgraded : ∀ xs i ok ys, r.trace = xs ++ .upgraded i ok :: ys → Attempted K true r xs i ok
  /-- What is sent is the topic, through the subscriber's mailbox, ... -/
  carried : ∀ n i msg j, .sent n i msg j ∈ r.trace →
    ∃ x, r.actors[i]? = some x ∧ Carries K x msg j
  /-- ... and when the publish has been handled, every send of it has returned. -/
  returned : ∀ xs ys, r.trace = xs ++ .finished :: ys → ∀ n i msg j, .sent n i msg j ∈ xs →
    ∃ x, r.actors[i]? = some x ∧ HasReturned x j
  /-- The handler waits for nothing but a send. -/
  progress : r.phase ≠ .idle → r.phase ≠ .halted [] →
    (∀ i op, r.phase.send? = some (i, op) → r.returned i op = true) → ∃ q, r.poll K true = some q
  /-- Two subscribers handle their common topics in the same order. -/
  agree : ∀ i i' n n', r.Got i n → r.Got i n' → r.Got i' n → r.Got i' n' →
    (r.GotBefore i n n' ↔ r.GotBefore i' n n')
  /-- A broker that never prunes sends the same to the same actors. -/
  unpruned : ∃ t, Reachable K false t ∧ t.actors = r.actors ∧ t.mailbox = r.mailbox ∧
    shown t.trace = shown r.trace

end Broker

/-- **Broker delivery**, for all interleavings of one broker with its clients and
subscribers. -/
theorem broker_contract {T M : Type} [DecidableEq T] {S : Program T} {K : Topic S M}
    {r : Broker S M} (h : Broker.Reachable K true r) : r.BrokerContract K := by
  have hr := h.rounds
  refine ⟨fun xs msg ys zs hsplit hys i => ?_, fun xs msg ys zs hsplit hys => ?_, fun i hi =>
    (h.listed.gone i hi).upgrades, fun xs msg ys i ok zs hsplit hys => h.tried_first hsplit hys,
    fun xs i ok ys hsplit => h.attempted hsplit,
    fun n i msg j hs => ?_, fun xs ys hsplit n i msg j hs => h.sent_returned hsplit hs,
    h.owning.progress, fun i i' n n' hi hi' hj hj' => ?_, ?_⟩
  · have hround := hr.closed xs msg ys zs hsplit hys
    rw [hround.sentTo rfl]
    -- who was upgraded was listed
    refine if_congr ⟨fun hi => ⟨hround.listed i ?_, hi⟩, And.right⟩ rfl rfl
    exact List.mem_append_left _ ((won_sublist_tried ys).subset hi)
  · have hround := hr.closed xs msg ys zs hsplit hys
    have hnodup := hround.nodup
    have hmissed := hround.missed
    rw [show BrokerPhase.idle.untried = ([] : List ℕ) from rfl, List.append_nil] at hnodup hmissed
    exact ⟨hnodup, hmissed⟩
  · obtain ⟨x, hx, hasked⟩ := h.spaced.asked n i msg j hs
    exact ⟨x, hx, hasked.carries (h.owning.alive i x hx)⟩
  · rw [h.spaced.got_before_iff h.owning hi hi', h.spaced.got_before_iff h.owning hj hj']
  · obtain ⟨t, ht, hm⟩ := h.unpruned
    exact ⟨t, ht, hm.actors, hm.mailbox, hm.trace⟩

namespace Tally

/-- One tally starts and subscribes, one number is published and delivered. -/
def delivery : List (BrokerLabel listeners ℕ) :=
  [.spawn () plain (0 : ℕ) (0 : ℕ), .actor 0 () (.loop (.hook true)),
    .actor 0 () (.handle (.derive 0 .weakSender)), .post (.subscribe ⟨0, 1⟩), .post (.publish 7),
    .next [], .next [⟨0, 1⟩], .poll, .poll, .poll, .actor 0 () (.op (.push 0)),
    .actor 0 () (.op (.flush 0)), .poll, .poll, .poll, .poll, .poll, .poll]

end Tally

/-- The subscriber gets the number. -/
theorem broker_contract_of_delivery : ∃ r : Broker Tally.listeners ℕ,
    (Broker.system Tally.numbers true).run (Broker.init _ ℕ) Tally.delivery = some r ∧
      sentTo 0 r.trace = [7] ∧ r.BrokerContract Tally.numbers :=
  ⟨_, rfl, rfl, broker_contract ⟨Tally.delivery, rfl⟩⟩

end Hannibal
