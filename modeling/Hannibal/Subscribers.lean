/-
The subscribers of the broker.

`BrokerStep` lists what one step of the broker or of its surroundings does.
What the broker was sent are weak senders, what it upgraded are senders, and
both stay until it lets them go (`Owning`).  So a subscriber that the map has
lost cannot be upgraded any more (`Gone`), and the handler never gets stuck
except in a send (`progress`).
-/
import Hannibal.Broker

open scoped List

namespace Hannibal

namespace BrokerPhase

variable {M : Type}

/-- The weak senders that the handler goes through. -/
def weak : BrokerPhase M → List SenderAt
  | .upgrading p todo => p.values ++ todo
  | .sending p _ => p.values
  | .awaiting p _ _ _ => p.values
  | .retaining p todo => p.values ++ todo
  | _ => []

theorem weak_upgrading (p : Publishing M) {s s' : SenderAt} {todo : List SenderAt}
    (h : s' ∈ p.values ++ todo) : s' ∈ p.values ++ s :: todo := by
  rw [List.mem_append] at h ⊢
  exact h.imp_right (List.mem_cons_of_mem s)

/-- The senders that are still to be used. -/
def toSend : BrokerPhase M → List SenderAt
  | .sending _ todo => todo
  | .awaiting _ _ _ todo => todo
  | _ => []

end BrokerPhase

@[simp] theorem takenMsgs_append {M : Type} (t u : List (BrokerEvent M)) :
    takenMsgs (t ++ u) = takenMsgs t ++ takenMsgs u := List.filterMap_append

theorem subscribed_append_singleton {M : Type} (i : ℕ) (msgs : List (BrokerMessage M))
    (msg : BrokerMessage M) : subscribed i (msgs ++ [msg]) =
      match msg with
      | .publish _ => subscribed i msgs
      | .subscribe s => if s.id = i then true else subscribed i msgs
      | .unsubscribe s => if s.id = i then false else subscribed i msgs
      | .ping _ => subscribed i msgs := by
  rw [subscribed, List.foldl_append]
  cases msg <;> rfl

namespace Broker

open Spawned (Later handleAt handleAt_eq_some)

variable {T M : Type} {S : Program T} {K : Topic S M} {prunes : Bool}
  {r q : Broker S M}

/-! ### Steps -/

/-- What one step does, and what it records. -/
inductive BrokerStep (K : Topic S M) (prunes : Bool) (r : Broker S M) :
    BrokerLabel S M → List (BrokerEvent M) → Broker S M → Prop where
  | spawn (t : T) (E : Environment (S.actor t)) (a : (S.actor t).State) (c : (S.actor t).Ctx) :
      BrokerStep K prunes r (.spawn t E a c) []
        { r with actors := r.actors ++ [⟨t, E, E.init a c⟩] }
  | act (i : ℕ) (x : Spawned S) (l : Label (S.actor x.type)) (s : Sys (S.actor x.type))
      (hx : r.actors[i]? = some x) (hs : x.env.step x.sys l = some s)
      (ha : r.allows i l = true) :
      BrokerStep K prunes r (.actor i x.type l) []
        { r with actors := r.actors.set i { x with sys := s } }
  | post (msg : BrokerMessage M) (ha : r.admits msg = true) (hp : r.phase.isHalted = false) :
      BrokerStep K prunes r (.post msg) [.posted msg]
        (({ r with
          mailbox := r.mailbox ++ [msg]
          moved := r.moved ++ msg.sender?.toList }).record [.posted msg])
  | publish (msg : M) (rest : List (BrokerMessage M)) (vs : List SenderAt)
      (hp : r.phase = .idle) (hm : r.mailbox = .publish msg :: rest) (hv : r.Enumerates vs) :
      BrokerStep K prunes r (.next vs) [.taken (.publish msg)]
        (({ r with mailbox := rest, phase := .upgrading ⟨msg, vs, []⟩ vs }).record
          [.taken (.publish msg)])
  | subscribe (s : SenderAt) (rest : List (BrokerMessage M)) (vs : List SenderAt)
      (hp : r.phase = .idle) (hm : r.mailbox = .subscribe s :: rest) :
      BrokerStep K prunes r (.next vs) [.taken (.subscribe s)]
        (({ r with
          mailbox := rest
          subscribers := Function.update r.subscribers s.id (some s) }).record
            [.taken (.subscribe s)])
  | unsubscribe (s : SenderAt) (rest : List (BrokerMessage M)) (vs : List SenderAt)
      (hp : r.phase = .idle) (hm : r.mailbox = .unsubscribe s :: rest) :
      BrokerStep K prunes r (.next vs) [.taken (.unsubscribe s)]
        (({ r with
          mailbox := rest
          subscribers := Function.update r.subscribers s.id none }).record
            [.taken (.unsubscribe s)])
  | ping (k : ℕ) (rest : List (BrokerMessage M)) (vs : List SenderAt)
      (hp : r.phase = .idle) (hm : r.mailbox = .ping k :: rest) :
      BrokerStep K prunes r (.next vs) [.taken (.ping k)]
        (({ r with mailbox := rest }).record [.taken (.ping k)])
  | upgrade (p : Publishing M) (s : SenderAt) (todo : List SenderAt)
      (hp : r.phase = .upgrading p (s :: todo)) (hu : r.upgrades s.id = true) :
      BrokerStep K prunes r .poll [.upgraded s.id true]
        (({ r.onHandle s.id (.upgrade s.handle) with
          phase := .upgrading (p.collect ⟨s.id, r.nextHandle s.id⟩) todo }).record
            [.upgraded s.id true])
  | fail (p : Publishing M) (s : SenderAt) (todo : List SenderAt)
      (hp : r.phase = .upgrading p (s :: todo)) (hu : r.upgrades s.id = false) :
      BrokerStep K prunes r .poll [.upgraded s.id false]
        (({ r with phase := .upgrading p todo }).record [.upgraded s.id false])
  | collect (p : Publishing M) (hp : r.phase = .upgrading p []) :
      BrokerStep K prunes r .poll [] { r with phase := .sending p p.live }
  | send (p : Publishing M) (s : SenderAt) (todo : List SenderAt) (x : Spawned S)
      (t : Sys (S.actor x.type)) (hp : r.phase = .sending p (s :: todo))
      (hx : r.actors[s.id]? = some x)
      (ht : x.env.step x.sys (.op (.begin (.send (K.message x.type p.msg)) s.handle)) = some t) :
      BrokerStep K prunes r .poll [.sent r.published s.id p.msg x.sys.ops.length]
        (({ r with
          actors := r.actors.set s.id { x with sys := t }
          phase := .awaiting p s.id x.sys.ops.length todo }).record
            [.sent r.published s.id p.msg x.sys.ops.length])
  | return (p : Publishing M) (i op : ℕ) (todo : List SenderAt)
      (hp : r.phase = .awaiting p i op todo) (hr : r.returned i op = true) :
      BrokerStep K prunes r .poll [] { r with phase := .sending p todo }
  | sent (p : Publishing M) (hp : r.phase = .sending p []) :
      BrokerStep K prunes r .poll []
        { r with phase := if prunes then .retaining p p.values else .dropping p.live }
  | keep (p : Publishing M) (s : SenderAt) (todo : List SenderAt)
      (hp : r.phase = .retaining p (s :: todo)) (hu : r.upgrades s.id = true) :
      BrokerStep K prunes r .poll [] { r with phase := .retaining p todo }
  | prune (p : Publishing M) (s : SenderAt) (todo : List SenderAt)
      (hp : r.phase = .retaining p (s :: todo)) (hu : r.upgrades s.id = false) :
      BrokerStep K prunes r .poll [.pruned s.id]
        (({ r with
          subscribers := Function.update r.subscribers s.id none
          phase := .retaining p todo }).record [.pruned s.id])
  | retained (p : Publishing M) (hp : r.phase = .retaining p []) :
      BrokerStep K prunes r .poll [] { r with phase := .dropping p.live }
  | drop (s : SenderAt) (todo : List SenderAt) (hp : r.phase = .dropping (s :: todo)) :
      BrokerStep K prunes r .poll []
        { r.onHandle s.id (.drop s.handle) with phase := .dropping todo }
  | finish (hp : r.phase = .dropping []) :
      BrokerStep K prunes r .poll [.finished] (({ r with phase := .idle }).record [.finished])
  | halt (hp : r.phase.isHalted = false) :
      BrokerStep K prunes r .halt [] { r with mailbox := [], phase := .halted r.phase.live }
  | unhand (s : SenderAt) (todo : List SenderAt) (hp : r.phase = .halted (s :: todo)) :
      BrokerStep K prunes r .poll []
        { r.onHandle s.id (.drop s.handle) with phase := .halted todo }

theorem poll_cases (h : r.poll K prunes = some q) : ∃ es, BrokerStep K prunes r .poll es q := by
  unfold poll at h
  split at h
  · cases h
  · next p s todo hp =>
    cases h
    unfold Broker.upgrade
    split
    · next hu => exact ⟨_, .upgrade p s todo hp hu⟩
    · next hu => exact ⟨_, .fail p s todo hp (by simpa using hu)⟩
  · next p hp =>
    cases h
    exact ⟨_, .collect p hp⟩
  · next p s todo hp =>
    unfold Broker.send at h
    split at h
    · next x hx =>
      obtain ⟨t, ht, rfl⟩ := Option.map_eq_some_iff.mp h
      exact ⟨_, .send p s todo x t hp hx ht⟩
    · cases h
  · next p hp =>
    cases h
    exact ⟨_, .sent p hp⟩
  · next p i op todo hp =>
    split at h
    · next hr =>
      cases h
      exact ⟨_, .return p i op todo hp hr⟩
    · cases h
  · next p s todo hp =>
    cases h
    unfold Broker.retain
    split
    · next hu => exact ⟨_, .keep p s todo hp hu⟩
    · next hu => exact ⟨_, .prune p s todo hp (by simpa using hu)⟩
  · next p hp =>
    cases h
    exact ⟨_, .retained p hp⟩
  · next s todo hp =>
    cases h
    exact ⟨_, .drop s todo hp⟩
  · next hp =>
    cases h
    exact ⟨_, .finish hp⟩
  · next s todo hp =>
    cases h
    exact ⟨_, .unhand s todo hp⟩
  · cases h

theorem step_cases [DecidableEq T] {l : BrokerLabel S M} (h : step K prunes r l = some q) :
    ∃ es, BrokerStep K prunes r l es q := by
  cases l with
  | spawn t E a c =>
    cases h
    exact ⟨_, .spawn t E a c⟩
  | actor i t l =>
    simp only [step] at h
    split at h
    · next x hx =>
      split at h
      · next ht =>
        subst ht
        split at h
        · next ha =>
          obtain ⟨s, hs, rfl⟩ := Option.map_eq_some_iff.mp h
          exact ⟨_, .act i x l s hx hs ha⟩
        · cases h
      · cases h
    · cases h
  | post msg =>
    simp only [step] at h
    split at h
    · next ha =>
      simp only [Bool.and_eq_true, Bool.not_eq_true'] at ha
      cases h
      exact ⟨_, .post msg ha.1 ha.2⟩
    · cases h
  | next vs =>
    simp only [step] at h
    split at h
    · next msg rest hp hm =>
      cases msg with
      | publish msg =>
        simp only [take] at h
        split at h
        · next hv =>
          cases h
          exact ⟨_, .publish msg rest vs hp hm hv⟩
        · cases h
      | subscribe s =>
        cases h
        exact ⟨_, .subscribe s rest vs hp hm⟩
      | unsubscribe s =>
        cases h
        exact ⟨_, .unsubscribe s rest vs hp hm⟩
      | ping k =>
        cases h
        exact ⟨_, .ping k rest vs hp hm⟩
    · cases h
  | poll => exact poll_cases h
  | halt =>
    simp only [step] at h
    split at h
    · cases h
    · next hp =>
      cases h
      exact ⟨_, .halt (by simpa using hp)⟩

theorem BrokerStep.trace {l : BrokerLabel S M} {es : List (BrokerEvent M)}
    (h : BrokerStep K prunes r l es q) : q.trace = r.trace ++ es := by
  cases h <;> first | rfl | exact (List.append_nil _).symm

/-- A step records one thing at most. -/
theorem BrokerStep.records {l : BrokerLabel S M} {es : List (BrokerEvent M)}
    (h : BrokerStep K prunes r l es q) : es.length ≤ 1 := by
  cases h <;> simp

/-! ### What the broker owns -/

/-- The actors live; what was moved to the broker are weak senders, what it
upgraded are different senders; its mailbox, its map and its handler have
nothing else. -/
structure Owning (r : Broker S M) : Prop where
  alive : ∀ (i : ℕ) (x : Spawned S), r.actors[i]? = some x → x.Alive
  weak : ∀ s ∈ r.moved, ∃ hd, handleAt r.actors s.id s.handle = some hd ∧ hd.kind = .weakSender
  live : ∀ s ∈ r.phase.live, ∃ hd, handleAt r.actors s.id s.handle = some hd ∧ hd.kind = .sender
  nodup : r.phase.live.Nodup
  posted : ∀ msg ∈ r.mailbox, ∀ s, msg.sender? = some s → s ∈ r.moved
  listed : ∀ i s, r.subscribers i = some s → s.id = i ∧ s ∈ r.moved
  goes : ∀ s ∈ r.phase.weak, s ∈ r.moved
  toSend : ∀ s ∈ r.phase.toSend, s ∈ r.phase.live

namespace Owning

theorem init (S : Program T) (M : Type) : (Broker.init S M).Owning where
  alive i x hx := by simp [Broker.init] at hx
  weak := nofun
  live := nofun
  nodup := .nil
  posted := nofun
  listed := nofun
  goes := nofun
  toSend := nofun

/-- The actors go on and keep the handles that the broker owns. -/
theorem frame (h : r.Owning) (hl : Later (fun i j => r.owns ⟨i, j⟩ = true) r.actors q.actors)
    (hq : q = { r with actors := q.actors }) : q.Owning := by
  rw [hq]
  refine ⟨hl.alive h.alive, fun s hs => ?_, fun s hs => ?_, h.nodup, h.posted, h.listed, h.goes,
    h.toSend⟩
  · obtain ⟨hd, hh, hk⟩ := h.weak s hs
    exact ⟨hd, hl.keeps _ _ _ (by simp [owns, hs]) hh, hk⟩
  · obtain ⟨hd, hh, hk⟩ := h.live s hs
    exact ⟨hd, hl.keeps _ _ _ (by simp [owns, hs]) hh, hk⟩

/-- The handler moves on and touches no actor. -/
theorem moves (h : r.Owning) {p : BrokerPhase M} (hlive : p.live = r.phase.live)
    (hu : ∀ s ∈ p.weak, s ∈ r.phase.weak) (hs : ∀ s ∈ p.toSend, s ∈ p.live)
    (hq : q = { r with phase := p, trace := q.trace }) : q.Owning := by
  rw [hq]
  refine ⟨h.alive, h.weak, ?_, ?_, h.posted, h.listed, fun s hm => h.goes s (hu s hm), hs⟩
  · show ∀ s ∈ p.live, _
    rw [hlive]
    exact h.live
  · show p.live.Nodup
    rw [hlive]
    exact h.nodup

/-- Messages leave the mailbox. -/
theorem takes (h : r.Owning) {rest : List (BrokerMessage M)} (hm : ∀ msg ∈ rest, msg ∈ r.mailbox)
    (hq : q = { r with mailbox := rest, trace := q.trace }) : q.Owning := by
  rw [hq]
  exact ⟨h.alive, h.weak, h.live, h.nodup, fun msg hmsg => h.posted msg (hm msg hmsg), h.listed,
    h.goes, h.toSend⟩

/-- The broker handles `Subscribe` or `Unsubscribe`. -/
theorem updates (h : r.Owning) {i : ℕ} {v : Option SenderAt} {rest : List (BrokerMessage M)}
    (hv : ∀ s, v = some s → s.id = i ∧ s ∈ r.moved) (hm : ∀ msg ∈ rest, msg ∈ r.mailbox)
    (es : List (BrokerEvent M)) :
    (({ r with mailbox := rest, subscribers := Function.update r.subscribers i v }).record
      es).Owning := by
  refine ⟨h.alive, h.weak, h.live, h.nodup, fun msg hmsg => h.posted msg (hm msg hmsg),
    fun j s hs => ?_, h.goes, h.toSend⟩
  change Function.update r.subscribers i v j = some s at hs
  by_cases hij : j = i
  · subst hij
    rw [Function.update_self] at hs
    exact hv s hs
  · rw [Function.update_of_ne hij] at hs
    exact h.listed j s hs

theorem lt_nextHandle {s : SenderAt} {hd : Handle} (h : handleAt r.actors s.id s.handle = some hd) :
    s.handle < r.nextHandle s.id := by
  obtain ⟨x, hx, hh⟩ := handleAt_eq_some.mp h
  simp only [nextHandle, hx]
  exact (List.getElem?_eq_some_iff.mp (Sys.handle?_eq_some.mp hh).1).1

theorem lt_length (h : r.Owning) {i : ℕ} {s : SenderAt} (hs : r.subscribers i = some s) :
    i < r.actors.length := by
  obtain ⟨rfl, hm⟩ := h.listed i s hs
  obtain ⟨hd, hh, -⟩ := h.weak s hm
  obtain ⟨x, hx, -⟩ := handleAt_eq_some.mp hh
  exact (List.getElem?_eq_some_iff.mp hx).1

/-- The sender that an upgrade makes is a new handle. -/
theorem upgrade_new (h : r.Owning) {s : SenderAt} (hs : s ∈ r.moved)
    (hu : r.upgrades s.id = true) : ∃ hd,
      handleAt (r.onHandle s.id (.upgrade s.handle)).actors s.id (r.nextHandle s.id) = some hd ∧
        hd.kind = .sender := by
  obtain ⟨hd, hh, hk⟩ := h.weak s hs
  obtain ⟨x, hx, hxh⟩ := handleAt_eq_some.mp hh
  simp only [upgrades, hx, Arcs.upgrade, Option.isSome_ite] at hu
  have hup : x.sys.arcs.upgrade hd.kind = some .sender := by
    rw [hk, Arcs.upgrade, if_pos (by simpa using hu)]
  refine ⟨⟨.sender, true, hd.spent⟩, handleAt_eq_some.mpr ⟨x.onHandle (.upgrade s.handle), ?_, ?_⟩,
    rfl⟩
  · show (r.actors.modify s.id _)[s.id]? = _
    simp [hx]
  · have hn : r.nextHandle s.id = x.sys.handles.length := by simp [nextHandle, hx]
    rw [Sys.handle?_eq_some, hn, Spawned.onHandle_upgrade hxh hup]
    simp

/-- The broker drops one of its senders. -/
theorem drops (h : r.Owning) {s : SenderAt} {todo : List SenderAt} {p : BrokerPhase M}
    (hlive : r.phase.live = s :: todo) (hp : p.live = todo) (hu : p.weak = [])
    (hs : p.toSend = []) :
    ({ r.onHandle s.id (.drop s.handle) with phase := p } : Broker S M).Owning := by
  have hlater : Later (fun i j => ¬ (i = s.id ∧ j = s.handle)) r.actors
      (r.onHandle s.id (.drop s.handle)).actors :=
    .onHandle _ _ _ fun j hP he => hP ⟨rfl, (HandleLabel.drop.inj he).symm⟩
  obtain ⟨hd, hh, hk⟩ := h.live s (hlive ▸ List.mem_cons_self)
  have hnodup := h.nodup
  rw [hlive, List.nodup_cons] at hnodup
  refine ⟨hlater.alive h.alive, fun s' hs' => ?_, fun s' hs' => ?_, ?_, h.posted, h.listed,
    fun s' hs' => ?_, fun s' hs' => ?_⟩
  · -- a weak sender is not the sender that is dropped
    obtain ⟨hd', hh', hk'⟩ := h.weak s' hs'
    refine ⟨hd', hlater.keeps _ _ _ (fun he => ?_) hh', hk'⟩
    rw [he.1, he.2, hh, Option.some_inj] at hh'
    rw [← hh', hk] at hk'
    cases hk'
  · change s' ∈ p.live at hs'
    rw [hp] at hs'
    obtain ⟨hd', hh', hk'⟩ := h.live s' (hlive ▸ List.mem_cons_of_mem _ hs')
    refine ⟨hd', hlater.keeps _ _ _ (fun he => hnodup.1 ?_) hh', hk'⟩
    obtain rfl : s' = s := by
      cases s
      cases s'
      simp_all
    exact hs'
  · show p.live.Nodup
    rw [hp]
    exact hnodup.2
  · exact absurd (hu ▸ hs' : s' ∈ []) List.not_mem_nil
  · exact absurd (hs ▸ hs' : s' ∈ []) List.not_mem_nil

/-- A message is posted. -/
theorem posts (h : r.Owning) {msg : BrokerMessage M} (ha : r.admits msg = true) :
    (({ r with
      mailbox := r.mailbox ++ [msg]
      moved := r.moved ++ msg.sender?.toList }).record [.posted msg]).Owning := by
  refine ⟨h.alive, fun s hs => ?_, h.live, h.nodup, fun msg' hm s hs => ?_, fun i s hs => ?_,
    fun s hs => List.mem_append_left _ (h.goes s hs), h.toSend⟩
  · rcases List.mem_append.mp hs with hs | hs
    · exact h.weak s hs
    · have hsend : msg.sender? = some s := by simpa using hs
      simp only [admits, hsend] at ha
      split at ha
      · next hd hh =>
        simp only [Bool.and_eq_true, decide_eq_true_eq] at ha
        exact ⟨hd, hh, ha.1⟩
      · cases ha
  · rcases List.mem_append.mp hm with hm | hm
    · exact List.mem_append_left _ (h.posted msg' hm s hs)
    · rw [List.mem_singleton] at hm
      subst hm
      exact List.mem_append_right _ (by simp [hs])
  · obtain ⟨hid, hmem⟩ := h.listed i s hs
    exact ⟨hid, List.mem_append_left _ hmem⟩

/-- The broker begins to handle a publish. -/
theorem publishes (h : r.Owning) {msg : M} {rest : List (BrokerMessage M)} {vs : List SenderAt}
    (hm : r.mailbox = .publish msg :: rest) (hv : r.Enumerates vs) :
    (({ r with mailbox := rest, phase := .upgrading ⟨msg, vs, []⟩ vs }).record
      [.taken (.publish msg)]).Owning := by
  refine ⟨h.alive, h.weak, fun s hs => (by cases hs), .nil, fun msg' hmsg => ?_, h.listed,
    fun s hs => ?_, fun s hs => (by cases hs)⟩
  · exact h.posted msg' (hm ▸ List.mem_cons_of_mem _ hmsg)
  · have hvs : s ∈ vs := by simpa [Broker.record, BrokerPhase.weak] using hs
    exact (h.listed s.id s (hv.2.1 s hvs)).2

/-- The broker upgrades a weak sender. -/
theorem collects (h : r.Owning) {p : Publishing M} {s : SenderAt} {todo : List SenderAt}
    (hp : r.phase = .upgrading p (s :: todo)) (hu : r.upgrades s.id = true) :
    (({ r.onHandle s.id (.upgrade s.handle) with
      phase := .upgrading (p.collect ⟨s.id, r.nextHandle s.id⟩) todo }).record
        [.upgraded s.id true]).Owning := by
  have hmem : s ∈ r.moved := h.goes s (by simp [hp, BrokerPhase.weak])
  have hlater : Later (fun _ _ => True) r.actors (r.onHandle s.id (.upgrade s.handle)).actors :=
    .onHandle _ _ _ fun _ _ => nofun
  have hlive : r.phase.live = p.live := by rw [hp]; rfl
  refine ⟨hlater.alive h.alive, fun s' hs' => ?_, fun s' hs' => ?_, ?_, h.posted, h.listed,
    fun s' hs' => ?_, fun s' hs' => by cases hs'⟩
  · obtain ⟨hd, hh, hk⟩ := h.weak s' hs'
    exact ⟨hd, hlater.keeps _ _ _ trivial hh, hk⟩
  · rcases List.mem_append.mp hs' with hs' | hs'
    · obtain ⟨hd, hh, hk⟩ := h.live s' (hlive ▸ hs')
      exact ⟨hd, hlater.keeps _ _ _ trivial hh, hk⟩
    · rw [List.mem_singleton] at hs'
      subst hs'
      exact h.upgrade_new hmem hu
  · show (p.live ++ [_]).Nodup
    rw [List.nodup_append', ← hlive]
    refine ⟨h.nodup, List.nodup_singleton _, fun s' hs' hnew => ?_⟩
    rw [List.mem_singleton] at hnew
    subst hnew
    obtain ⟨hd, hh, -⟩ := h.live _ hs'
    exact absurd (lt_nextHandle hh) (lt_irrefl _)
  · exact h.goes s' (hp ▸ BrokerPhase.weak_upgrading p hs')

/-- The broker begins a send. -/
theorem sends (h : r.Owning) {p : Publishing M} {s : SenderAt} {todo : List SenderAt}
    {x : Spawned S} {t : Sys (S.actor x.type)} (hp : r.phase = .sending p (s :: todo))
    (hx : r.actors[s.id]? = some x)
    (ht : x.env.step x.sys (.op (.begin (.send (K.message x.type p.msg)) s.handle)) = some t)
    (es : List (BrokerEvent M)) :
    (({ r with
      actors := r.actors.set s.id { x with sys := t }
      phase := .awaiting p s.id x.sys.ops.length todo }).record es).Owning := by
  have hlater : Later (fun _ _ => True) r.actors (r.actors.set s.id { x with sys := t }) :=
    .set hx (.of_step ht) fun j hd _ hh => Environment.step_handle ht hh nofun nofun
  have hgo : ({ r with actors := r.actors.set s.id { x with sys := t } } : Broker S M).Owning :=
    h.frame (hlater.mono fun _ _ _ => trivial) rfl
  refine hgo.moves (p := .awaiting p s.id x.sys.ops.length todo) (by rw [hp]; rfl)
    (fun s' hs' => hp ▸ hs') (fun s' hs' => ?_) rfl
  have hsend := h.toSend s'
  rw [hp] at hsend
  exact hsend (List.mem_cons_of_mem _ hs')

/-- The handler goes on. -/
theorem step_poll {es : List (BrokerEvent M)} (h : r.Owning)
    (hs : BrokerStep K prunes r .poll es q) : q.Owning := by
  cases hs with
  | upgrade p s todo hp hu => exact h.collects hp hu
  | fail p s todo hp hu =>
    exact h.moves (p := .upgrading p todo) (by rw [hp]; rfl)
      (fun s' hs' => hp ▸ BrokerPhase.weak_upgrading p hs') (fun s' hs' => by cases hs') rfl
  | collect p hp =>
    exact h.moves (p := .sending p p.live) (by rw [hp]; rfl)
      (fun s hs => hp ▸ List.mem_append_left _ hs) (fun _ hs => hs) rfl
  | send p s todo x t hp hx ht => exact h.sends hp hx ht _
  | «return» p i op todo hp hr =>
    have hsend := h.toSend
    rw [hp] at hsend
    exact h.moves (p := .sending p todo) (by rw [hp]; rfl) (fun s hs => hp ▸ hs) hsend rfl
  | sent p hp =>
    refine h.moves (p := if prunes then .retaining p p.values else .dropping p.live) ?_ ?_ ?_ rfl
    · rw [hp]
      split <;> rfl
    · rw [hp]
      split
      · exact fun s hs => (List.mem_append.mp hs).elim id id
      · exact fun s hs => by cases hs
    · split <;> exact fun s hs => by cases hs
  | keep p s todo hp hu =>
    exact h.moves (p := .retaining p todo) (by rw [hp]; rfl)
      (fun s' hs' => hp ▸ BrokerPhase.weak_upgrading p hs') (fun s hs => by cases hs) rfl
  | prune p s todo hp hu =>
    have hgo := h.updates (i := s.id) (v := none) (fun s' hs' => by cases hs') (fun _ hm => hm) []
    have hlive : p.live = r.phase.live := by rw [hp]; rfl
    exact hgo.moves (p := .retaining p todo) hlive
      (fun s' hs' => show s' ∈ r.phase.weak from hp ▸ BrokerPhase.weak_upgrading p hs')
      (fun s hs => by cases hs) rfl
  | retained p hp =>
    exact h.moves (p := .dropping p.live) (by rw [hp]; rfl) (fun s hs => by cases hs)
      (fun s hs => by cases hs) rfl
  | finish hp =>
    exact h.moves (p := .idle) (by rw [hp]; rfl) (fun s hs => by cases hs)
      (fun s hs => by cases hs) rfl
  | drop s todo hp => exact h.drops (by rw [hp]; rfl) rfl rfl rfl
  | unhand s todo hp => exact h.drops (by rw [hp]; rfl) rfl rfl rfl

theorem step {l : BrokerLabel S M} {es : List (BrokerEvent M)} (h : r.Owning)
    (hs : BrokerStep K prunes r l es q) : q.Owning := by
  have hs' := hs
  cases hs with
  | spawn t E a c => exact h.frame (.spawn ⟨a, c, .refl _ _⟩) rfl
  | act i x l s hx hs ha =>
    refine h.frame (.set hx (.of_step hs) fun j hd hj hh => ?_) rfl
    -- the step does not use a handle that the broker owns
    have huse : l.uses ≠ some j := by
      intro huse
      simp [allows, huse, hj] at ha
    exact Environment.step_handle hs hh (fun hl => huse (hl ▸ rfl)) fun hl => huse (hl ▸ rfl)
  | post msg ha hp => exact h.posts ha
  | publish msg rest vs hp hm hv => exact h.publishes hm hv
  | subscribe s rest vs hp hm =>
    refine h.updates (fun s' hs' => ?_) (fun msg hmsg => hm ▸ List.mem_cons_of_mem _ hmsg) _
    obtain rfl := Option.some_inj.mp hs'
    exact ⟨rfl, h.posted (.subscribe s) (by simp [hm]) s rfl⟩
  | unsubscribe s rest vs hp hm =>
    exact h.updates (fun s' hs' => by cases hs')
      (fun msg hmsg => hm ▸ List.mem_cons_of_mem _ hmsg) _
  | ping k rest vs hp hm =>
    exact h.takes (fun msg hmsg => hm ▸ List.mem_cons_of_mem _ hmsg) rfl
  | halt hp =>
    have hgo : ({ r with mailbox := [] } : Broker S M).Owning :=
      h.takes (fun msg hmsg => by cases hmsg) rfl
    exact hgo.moves (p := .halted r.phase.live) rfl (fun s hs => by cases hs)
      (fun s hs => by cases hs) rfl
  | _ => exact h.step_poll hs'

end Owning

/-! ### What becomes of the subscribers -/

/-- The actors went on or were spawned. -/
theorem BrokerStep.later {l : BrokerLabel S M} {es : List (BrokerEvent M)}
    (hs : BrokerStep K prunes r l es q) : Later (fun _ _ => False) r.actors q.actors := by
  cases hs with
  | spawn t E a c => exact .spawn ⟨a, c, .refl _ _⟩
  | act i x l s hx hs ha => exact .set hx (.of_step hs) nofun
  | upgrade p s todo hp hu => exact .onHandle _ _ _ fun _ h => h.elim
  | send p s todo x t hp hx ht => exact .set hx (.of_step ht) nofun
  | drop s todo hp => exact .onHandle _ _ _ fun _ h => h.elim
  | unhand s todo hp => exact .onHandle _ _ _ fun _ h => h.elim
  | _ => exact .refl _ _

/-- The actor exists and its weak senders cannot be upgraded. -/
def Gone (r : Broker S M) (i : ℕ) : Prop :=
  ∃ x, r.actors[i]? = some x ∧ x.sys.arcs.upgrade .weakSender = none

theorem Gone.upgrades {i : ℕ} (h : r.Gone i) : r.upgrades i = false := by
  obtain ⟨x, hx, hu⟩ := h
  simp [Broker.upgrades, hx, hu]

/-- What cannot be upgraded is gone for good. -/
theorem Gone.step {i : ℕ} (hg : r.Gone i) (h : r.Owning) {l : BrokerLabel S M}
    {es : List (BrokerEvent M)} (hs : BrokerStep K prunes r l es q) : q.Gone i := by
  obtain ⟨x, hx, hu⟩ := hg
  obtain ⟨y, hy, hxy⟩ := hs.later.actor i x hx
  exact ⟨y, hy, hxy.upgrade_none (h.alive i x hx) hu⟩

theorem Owning.gone (h : r.Owning) {i : ℕ} {s : SenderAt} (hs : s ∈ r.moved) (hi : s.id = i)
    (hu : r.upgrades i = false) : r.Gone i := by
  obtain ⟨hd, hh, -⟩ := h.weak s hs
  obtain ⟨x, hx, -⟩ := handleAt_eq_some.mp hh
  rw [hi] at hx
  refine ⟨x, hx, ?_⟩
  simpa [Broker.upgrades, hx] using hu

/-- Everybody in the map is subscribed; a subscriber that is not in the map was
pruned, and who was pruned is gone. -/
structure Listed (r : Broker S M) : Prop where
  subscribed : ∀ i, r.subscribers i ≠ none → Hannibal.subscribed i (takenMsgs r.trace) = true
  missing : ∀ i, Hannibal.subscribed i (takenMsgs r.trace) = true →
    r.subscribers i ≠ none ∨ .pruned i ∈ r.trace
  gone : ∀ i, .pruned i ∈ r.trace → r.Gone i

namespace Listed

theorem init (S : Program T) (M : Type) : (Broker.init S M).Listed where
  subscribed i h := absurd rfl h
  missing i h := by cases h
  gone i h := by cases h

/-- A step that leaves the map and the subscriptions alone. -/
theorem frame (h : r.Listed) {es : List (BrokerEvent M)} (hg : ∀ i, r.Gone i → q.Gone i)
    (ht : q.trace = r.trace ++ es) (hm : q.subscribers = r.subscribers)
    (hes : ∀ i, Hannibal.subscribed i (takenMsgs (r.trace ++ es)) =
      Hannibal.subscribed i (takenMsgs r.trace))
    (hpr : ∀ i, .pruned i ∉ es) : q.Listed := by
  refine ⟨fun i hi => ?_, fun i hi => ?_, fun i hi => ?_⟩
  · rw [ht, hes]
    exact h.subscribed i (hm ▸ hi)
  · rw [ht, hes] at hi
    rw [hm, ht]
    exact (h.missing i hi).imp_right (List.mem_append_left _)
  · rw [ht, List.mem_append, or_iff_left (hpr i)] at hi
    exact hg i (h.gone i hi)

/-- A step that writes the entry of `j`. -/
theorem writes (h : r.Listed) {es : List (BrokerEvent M)} (hg : ∀ i, r.Gone i → q.Gone i)
    (ht : q.trace = r.trace ++ es) {j : ℕ} {v : Option SenderAt}
    (hm : q.subscribers = Function.update r.subscribers j v)
    (hes : ∀ i, i ≠ j → Hannibal.subscribed i (takenMsgs (r.trace ++ es)) =
      Hannibal.subscribed i (takenMsgs r.trace))
    (hin : v ≠ none → Hannibal.subscribed j (takenMsgs (r.trace ++ es)) = true)
    (hout : Hannibal.subscribed j (takenMsgs (r.trace ++ es)) = true →
      v ≠ none ∨ .pruned j ∈ es)
    (hpr : ∀ i, .pruned i ∈ es → q.Gone i) : q.Listed := by
  refine ⟨fun i hi => ?_, fun i hi => ?_, fun i hi => ?_⟩
  · rw [ht]
    rw [hm] at hi
    by_cases hij : i = j
    · subst hij
      rw [Function.update_self] at hi
      exact hin hi
    · rw [Function.update_of_ne hij] at hi
      rw [hes i hij]
      exact h.subscribed i hi
  · rw [ht] at hi
    rw [hm, ht, List.mem_append]
    by_cases hij : i = j
    · subst hij
      rw [Function.update_self]
      exact (hout hi).imp_right .inr
    · rw [hes i hij] at hi
      rw [Function.update_of_ne hij]
      exact (h.missing i hi).imp_right .inl
  · rw [ht, List.mem_append] at hi
    exact hi.elim (fun hi => hg i (h.gone i hi)) (hpr i)

theorem step (h : r.Listed) (ho : r.Owning) {l : BrokerLabel S M} {es : List (BrokerEvent M)}
    (hs : BrokerStep K prunes r l es q) : q.Listed := by
  have hg : ∀ i, r.Gone i → q.Gone i := fun i hi => hi.step ho hs
  have ht := hs.trace
  cases hs with
  | publish msg rest vs hp hm hv =>
    refine h.frame hg ht rfl (fun i => ?_) (by simp)
    rw [takenMsgs_append]
    exact subscribed_append_singleton i _ _
  | ping k rest vs hp hm =>
    refine h.frame hg ht rfl (fun i => ?_) (by simp)
    rw [takenMsgs_append]
    exact subscribed_append_singleton i _ _
  | subscribe s rest vs hp hm =>
    have hsub : ∀ i, Hannibal.subscribed i (takenMsgs (r.trace ++ [.taken (.subscribe s)])) =
        if s.id = i then true else Hannibal.subscribed i (takenMsgs r.trace) := fun i => by
      rw [takenMsgs_append]
      exact subscribed_append_singleton i _ _
    refine h.writes hg ht rfl (fun i hi => ?_) (fun _ => ?_) (fun _ => .inl nofun) (by simp)
    · rw [hsub, if_neg (Ne.symm hi)]
    · rw [hsub, if_pos rfl]
  | unsubscribe s rest vs hp hm =>
    have hsub : ∀ i, Hannibal.subscribed i (takenMsgs (r.trace ++ [.taken (.unsubscribe s)])) =
        if s.id = i then false else Hannibal.subscribed i (takenMsgs r.trace) := fun i => by
      rw [takenMsgs_append]
      exact subscribed_append_singleton i _ _
    refine h.writes hg ht rfl (fun i hi => ?_) (absurd rfl) (fun hi => ?_) (by simp)
    · rw [hsub, if_neg (Ne.symm hi)]
    · rw [hsub, if_pos rfl] at hi
      cases hi
  | prune p s todo hp hu =>
    have hsub : ∀ i, Hannibal.subscribed i (takenMsgs (r.trace ++ [.pruned s.id])) =
        Hannibal.subscribed i (takenMsgs r.trace) := fun i => by
      rw [takenMsgs_append]
      exact congrArg _ (List.append_nil _)
    refine h.writes hg ht rfl (fun i _ => hsub i) (absurd rfl) (fun _ => .inr (by simp)) ?_
    intro i hi
    rw [List.mem_singleton, BrokerEvent.pruned.injEq] at hi
    subst hi
    exact hg _ (ho.gone (ho.goes s (by simp [hp, BrokerPhase.weak])) rfl hu)
  | _ =>
    refine h.frame hg ht rfl (fun i => ?_) (by simp)
    rw [takenMsgs_append]
    exact congrArg _ (List.append_nil _)

end Listed

/-- The handler is stuck in nothing but a send. -/
theorem Owning.progress (h : r.Owning) (hb : r.phase ≠ .idle) (hn : r.phase ≠ .halted [])
    (hs : ∀ i op, r.phase.send? = some (i, op) → r.returned i op = true) :
    ∃ q, r.poll K prunes = some q := by
  unfold poll
  cases hp : r.phase with
  | idle => exact absurd hp hb
  | upgrading p todo => cases todo <;> exact ⟨_, rfl⟩
  | sending p todo =>
    cases todo with
    | nil => exact ⟨_, rfl⟩
    | cons s todo =>
      have hmem : s ∈ r.phase.live := h.toSend s (by rw [hp]; exact List.mem_cons_self)
      obtain ⟨hd, hh, hk⟩ := h.live s hmem
      obtain ⟨x, hx, hxh⟩ := handleAt_eq_some.mp hh
      have hstep : x.env.step x.sys (.op (.begin (.send (K.message x.type p.msg)) s.handle)) =
          some (x.sys.beginOp (.send (K.message x.type p.msg)) .detached) := by
        simp [Environment.step, Sys.opStep, hxh, hk, HandleKind.offers, HandleKind.strong,
          HandleKind.access]
      simp [Broker.send, hx, hstep]
  | awaiting p i op todo =>
    have hr := hs i op (by rw [hp]; rfl)
    simp [hr]
  | retaining p todo => cases todo <;> exact ⟨_, rfl⟩
  | dropping todo => cases todo <;> exact ⟨_, rfl⟩
  | halted todo =>
    cases todo with
    | nil => exact absurd hp hn
    | cons s todo => exact ⟨_, rfl⟩

/-! ### Reachable brokers -/

variable [DecidableEq T]

/-- The actors go on. -/
theorem reaches_later (h : (system K prunes).Reaches r q) :
    Later (fun _ _ => False) r.actors q.actors := by
  refine Machine.invariant (P := fun q : Broker S M =>
    Later (fun _ _ => False) r.actors q.actors) (fun u l v hu hst => ?_) (.refl _ _) h
  obtain ⟨es, hs⟩ := step_cases hst
  exact hu.trans hs.later

theorem reaches_trace (h : (system K prunes).Reaches r q) : r.trace <+: q.trace := by
  refine Machine.invariant (P := fun q : Broker S M => r.trace <+: q.trace)
    (fun u l v hu hst => ?_) (List.prefix_refl _) h
  obtain ⟨es, hs⟩ := step_cases hst
  exact hs.trace ▸ hu.trans (List.prefix_append _ _)

/-- The brokers that a program may get to. -/
def Reachable (K : Topic S M) (prunes : Bool) (r : Broker S M) : Prop :=
  (system K prunes).Reaches (init S M) r

namespace Reachable

/-- What holds of a fresh broker and is preserved by the steps of reachable
brokers holds of every reachable one. -/
theorem induction {P : Broker S M → Prop} (h0 : P (init S M))
    (hstep : ∀ r l es q, r.Owning → r.Listed → P r → BrokerStep K prunes r l es q → P q)
    (h : Reachable K prunes r) : r.Owning ∧ r.Listed ∧ P r := by
  refine Machine.invariant (P := fun r : Broker S M => r.Owning ∧ r.Listed ∧ P r)
    (fun r l q hr hst => ?_) ⟨.init S M, .init S M, h0⟩ h
  obtain ⟨es, hs⟩ := step_cases hst
  exact ⟨hr.1.step hs, hr.2.1.step hr.1 hs, hstep r l es q hr.1 hr.2.1 hr.2.2 hs⟩

theorem owning (h : Reachable K prunes r) : r.Owning :=
  (h.induction (P := fun _ => True) trivial fun _ _ _ _ _ _ _ _ => trivial).1

theorem listed (h : Reachable K prunes r) : r.Listed :=
  (h.induction (P := fun _ => True) trivial fun _ _ _ _ _ _ _ _ => trivial).2.1

/-- Whatever is in the trace was recorded by a step of the run. -/
theorem recorded (h : Reachable K prunes r) {xs ys : List (BrokerEvent M)} {e : BrokerEvent M}
    (hr : r.trace = xs ++ e :: ys) : ∃ u l v, Reachable K prunes u ∧ u.trace = xs ∧
      (system K prunes).step u l = some v ∧ BrokerStep K prunes u l [e] v ∧
        (system K prunes).Reaches v r := by
  obtain ⟨u, l, v, hu, hle, hst, hlt, hv⟩ :=
    Machine.Reaches.turn (P := fun q : Broker S M => xs.length < q.trace.length) h
      (by simp [Broker.init]) (by simp [hr])
  obtain ⟨es, hs⟩ := step_cases hst
  have hes := hs.records
  rw [hs.trace, List.length_append] at hlt
  obtain ⟨zs, hzs⟩ := reaches_trace hv
  rw [hs.trace, hr, List.append_assoc] at hzs
  -- the step recorded what stands behind `xs`
  obtain ⟨rfl, he⟩ := List.append_inj hzs (by omega)
  rcases es with _ | ⟨e', _ | ⟨e'', es⟩⟩
  · simp at hlt
  · obtain rfl := (List.cons.inj he).1
    exact ⟨u, l, v, hu, rfl, hst, hs, hv⟩
  · simp at hes

end Reachable

end Broker

end Hannibal
