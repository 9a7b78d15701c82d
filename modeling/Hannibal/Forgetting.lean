/-
What the broker forgets.

`retain` takes a subscriber out of the map where its weak sender cannot be upgraded, and
the senders that the same handler upgraded before are alive until then.  So what stays in
the map is what was upgraded at the start, whatever has become of the actors:

* `Handling` — the map while one publish is handled;
* **`broker_forgets_iff`** — a publish takes every subscriber whose loop had ended out of
  the map exactly if none of them can be upgraded any more when the handler comes to it.
-/
import Hannibal.Delivery

namespace Hannibal

namespace BrokerPhase

variable {M : Type}

/-- What the handler has in hand, up to the drop of its senders. -/
def publishing? : BrokerPhase M → Option (Publishing M)
  | .upgrading p _ => some p
  | .sending p _ => some p
  | .awaiting p _ _ _ => some p
  | .retaining p _ => some p
  | _ => none

/-- The subscribers that `retain` has not looked at. -/
def unseen : BrokerPhase M → List ℕ
  | .upgrading p _ => p.values.map SenderAt.id
  | .sending p _ => p.values.map SenderAt.id
  | .awaiting p _ _ _ => p.values.map SenderAt.id
  | .retaining _ todo => todo.map SenderAt.id
  | _ => []

end BrokerPhase

namespace Broker

open Spawned (Later handleAt handleAt_eq_some)

variable {T M : Type} {S : Program T} {K : Topic S M} {prunes : Bool} {r q x y : Broker S M}

/-- A sender keeps its actor upgradable. -/
theorem Owning.upgrades_of_handle (h : r.Owning) {i j : ℕ} {hd : Handle}
    (hh : handleAt r.actors i j = some hd) (hk : hd.kind.captures = ⟨1, 1⟩) :
    r.upgrades i = true := by
  obtain ⟨z, hz, hzh⟩ := handleAt_eq_some.mp hh
  obtain ⟨a, c, hreach⟩ := h.alive i z hz
  have hle := hreach.counted.handle_le hzh
  rw [hk] at hle
  have ht : 0 < z.sys.arcs.tx := hle.1
  have hf : 0 < z.sys.arcs.force := hle.2
  simp [upgrades, hz, Arcs.upgrade, ht, hf]

/-- The map while a publish is handled: `vs` is the order in which the handler goes through
the map `m`, and `ys` is what was recorded since. -/
structure Handling (m : ℕ → Option SenderAt) (vs : List SenderAt) (ys : List (BrokerEvent M))
    (x : Broker S M) : Prop where
  values : ∀ p, x.phase.publishing? = some p → p.values = vs ∧ p.live.map SenderAt.id = won ys
  tried : ∀ i ∈ vs.map SenderAt.id, i ∈ x.phase.untried ∨ i ∈ won ys ∨ x.Gone i ∨
    x.phase.isHalted = true
  untried : ∀ i ∈ x.phase.untried, i ∈ vs.map SenderAt.id
  unseen : ∀ i ∈ x.phase.unseen, i ∈ vs.map SenderAt.id
  won : ∀ i ∈ won ys, i ∈ vs.map SenderAt.id
  nodup : x.phase.unseen.Nodup
  kept : x.phase.isHalted = false → ∀ i, i ∉ vs.map SenderAt.id ∨ i ∈ x.phase.unseen ∨
    i ∈ Hannibal.won ys → x.subscribers i = m i
  lost : x.phase.isHalted = false → ∀ i ∈ vs.map SenderAt.id, i ∉ x.phase.unseen →
    i ∉ Hannibal.won ys → x.subscribers i = none

namespace Handling

variable {m : ℕ → Option SenderAt} {vs : List SenderAt} {ys es : List (BrokerEvent M)}

/-- Nobody is upgraded, and the map stays as it is. -/
theorem frame (h : x.Handling m vs ys) (hg : ∀ i, x.Gone i → y.Gone i)
    (he : Hannibal.won es = []) (hm : y.subscribers = x.subscribers)
    (hv : ∀ p, y.phase.publishing? = some p → x.phase.publishing? = some p)
    (ht : y.phase.untried = x.phase.untried) (hu : y.phase.unseen = x.phase.unseen)
    (hh : y.phase.isHalted = x.phase.isHalted) : y.Handling m vs (ys ++ es) := by
  have hw : Hannibal.won (ys ++ es) = Hannibal.won ys := by rw [won_append, he, List.append_nil]
  refine ⟨fun p hp => ?_, fun i hi => ?_, ?_, ?_, ?_, ?_, ?_, ?_⟩
  · rw [hw]
    exact h.values p (hv p hp)
  · rw [hw, ht, hh]
    exact (h.tried i hi).imp_right (Or.imp_right (Or.imp_left (hg i)))
  · rw [ht]
    exact h.untried
  · rw [hu]
    exact h.unseen
  · rw [hw]
    exact h.won
  · rw [hu]
    exact h.nodup
  · rw [hw, hm, hu, hh]
    exact h.kept
  · rw [hw, hm, hu, hh]
    exact h.lost

/-- A broker whose loop ends leaves its map as it is. -/
theorem halted (h : x.Handling m vs ys) {todo : List SenderAt} (hp : y.phase = .halted todo) :
    y.Handling m vs (ys ++ []) := by
  rw [List.append_nil]
  refine ⟨fun p hpp => ?_, fun i hi => ?_, fun i hi => ?_, fun i hi => ?_, h.won, ?_, fun hh => ?_,
    fun hh => ?_⟩
  · rw [hp] at hpp
    cases hpp
  · rw [hp]
    exact .inr (.inr (.inr rfl))
  · rw [hp] at hi
    cases hi
  · rw [hp] at hi
    cases hi
  · rw [hp]
    exact .nil
  · rw [hp] at hh
    cases hh
  · rw [hp] at hh
    cases hh

theorem upgrade (h : x.Handling m vs ys) (hg : ∀ i, x.Gone i → y.Gone i) {p : Publishing M}
    {s : SenderAt} {todo : List SenderAt} {j : ℕ} (hp : x.phase = .upgrading p (s :: todo))
    (hq : y.phase = .upgrading (p.collect ⟨s.id, j⟩) todo) (hm : y.subscribers = x.subscribers) :
    y.Handling m vs (ys ++ [.upgraded s.id true]) := by
  have hw : Hannibal.won (ys ++ [.upgraded s.id true]) = Hannibal.won ys ++ [s.id] :=
    won_append _ _
  have hval := h.values p (by rw [hp]; rfl)
  have hin : ∀ i ∈ (s :: todo).map SenderAt.id, i ∈ vs.map SenderAt.id := by
    intro i hi
    exact h.untried i (by rw [hp]; exact hi)
  have hunseen : ∀ (z : BrokerPhase M) (p' : Publishing M), z.unseen = p'.values.map SenderAt.id →
      p'.values = vs → z.unseen = vs.map SenderAt.id := by
    intro z p' hz hv
    rw [hz, hv]
  refine ⟨fun p' hp' => ?_, fun i hi => ?_, fun i hi => ?_, fun i hi => ?_, fun i hi => ?_,
    ?_, fun _ i _ => ?_, fun _ i hi hu _ => ?_⟩
  · rw [hq] at hp'
    cases hp'
    refine ⟨hval.1, ?_⟩
    rw [hw, ← hval.2]
    exact List.map_append
  · rw [hq, hw]
    -- `s` leaves the list of those that are still to be tried
    rcases h.tried i hi with ht | ht | ht | ht
    · rw [hp] at ht
      rcases List.mem_cons.mp ht with rfl | ht
      · exact .inr (.inl (by simp))
      · exact .inl ht
    · exact .inr (.inl (List.mem_append_left _ ht))
    · exact .inr (.inr (.inl (hg i ht)))
    · rw [hp] at ht
      cases ht
  · rw [hq] at hi
    exact hin i (List.mem_cons_of_mem _ hi)
  · rw [hq] at hi
    change i ∈ p.values.map SenderAt.id at hi
    rwa [hval.1] at hi
  · rw [hw, List.mem_append, List.mem_singleton] at hi
    rcases hi with hi | rfl
    · exact h.won i hi
    · exact hin _ List.mem_cons_self
  · rw [hq]
    have hn := h.nodup
    rwa [hp] at hn
  · -- `retain` has looked at nobody yet
    rw [hm]
    refine h.kept (by rw [hp]; rfl) i ?_
    rw [hunseen x.phase p (by rw [hp]; rfl) hval.1]
    exact (em (i ∈ vs.map SenderAt.id)).symm.imp_right .inl
  · exact absurd hi fun hi => hu (by rw [hunseen y.phase _ (by rw [hq]; rfl) hval.1]; exact hi)

theorem fail (h : x.Handling m vs ys) (hg : ∀ i, x.Gone i → y.Gone i) {p : Publishing M}
    {s : SenderAt} {todo : List SenderAt} (hp : x.phase = .upgrading p (s :: todo))
    (hq : y.phase = .upgrading p todo) (hm : y.subscribers = x.subscribers) (hs : x.Gone s.id) :
    y.Handling m vs (ys ++ [.upgraded s.id false]) := by
  have hw : Hannibal.won (ys ++ [.upgraded s.id false]) = Hannibal.won ys := by
    rw [won_append]
    exact List.append_nil _
  refine ⟨fun p' hp' => ?_, fun i hi => ?_, fun i hi => ?_, fun i hi => ?_, ?_, ?_, ?_, ?_⟩
  · rw [hw]
    rw [hq] at hp'
    exact h.values p' (by rw [hp]; exact hp')
  · rw [hq, hw]
    rcases h.tried i hi with ht | ht | ht | ht
    · rw [hp] at ht
      rcases List.mem_cons.mp ht with rfl | ht
      · exact .inr (.inr (.inl (hg _ hs)))
      · exact .inl ht
    · exact .inr (.inl ht)
    · exact .inr (.inr (.inl (hg i ht)))
    · rw [hp] at ht
      cases ht
  · rw [hq] at hi
    exact h.untried i (by rw [hp]; exact List.mem_cons_of_mem _ hi)
  · rw [hq] at hi
    exact h.unseen i (by rw [hp]; exact hi)
  · rw [hw]
    exact h.won
  · have hn := h.nodup
    rw [hp] at hn
    rw [hq]
    exact hn
  · have hk := h.kept
    rw [hp] at hk
    rw [hw, hm, hq]
    exact hk
  · have hl := h.lost
    rw [hp] at hl
    rw [hw, hm, hq]
    exact hl

/-- `retain` looks at `s` and takes it out of the map if it was not upgraded. -/
theorem retain (h : x.Handling m vs ys) (hg : ∀ i, x.Gone i → y.Gone i) {p : Publishing M}
    {s : SenderAt} {todo : List SenderAt} (hp : x.phase = .retaining p (s :: todo))
    (hq : y.phase = .retaining p todo) (he : Hannibal.won es = [])
    (hm : ∀ i, y.subscribers i = if i = s.id ∧ s.id ∉ Hannibal.won ys then none
      else x.subscribers i) : y.Handling m vs (ys ++ es) := by
  have hw : Hannibal.won (ys ++ es) = Hannibal.won ys := by rw [won_append, he, List.append_nil]
  have hs : s.id ∈ vs.map SenderAt.id := h.unseen _ (by rw [hp]; exact List.mem_cons_self)
  have hnodup : s.id ∉ todo.map SenderAt.id ∧ (todo.map SenderAt.id).Nodup := by
    have hn := h.nodup
    rw [hp] at hn
    exact List.nodup_cons.mp hn
  refine ⟨fun p' hp' => ?_, fun i hi => ?_, fun i hi => ?_, fun i hi => ?_, ?_, ?_,
    fun _ i hi => ?_, fun _ i hi hu hnw => ?_⟩
  · rw [hw]
    rw [hq] at hp'
    exact h.values p' (by rw [hp]; exact hp')
  · rw [hw, hq]
    have ht := h.tried i hi
    rw [hp] at ht
    exact ht.imp_right (Or.imp_right (Or.imp_left (hg i)))
  · rw [hq] at hi
    cases hi
  · rw [hq] at hi
    exact h.unseen i (by rw [hp]; exact List.mem_cons_of_mem _ hi)
  · rw [hw]
    exact h.won
  · rw [hq]
    exact hnodup.2
  · rw [hm]
    rw [hw, hq] at hi
    -- only the entry of `s` may go, and it stays where `s` was upgraded
    by_cases his : i = s.id
    · subst his
      have hwon : s.id ∈ Hannibal.won ys :=
        (hi.resolve_left (not_not_intro hs)).resolve_left hnodup.1
      rw [if_neg fun hn => hn.2 hwon]
      exact h.kept (by rw [hp]; rfl) _ (.inr (.inr hwon))
    · rw [if_neg fun hn => his hn.1]
      refine h.kept (by rw [hp]; rfl) i (hi.imp_right (Or.imp_left fun hu => ?_))
      rw [hp]
      exact List.mem_cons_of_mem _ hu
  · rw [hw] at hnw
    rw [hm]
    by_cases his : i = s.id
    · subst his
      rw [if_pos ⟨rfl, hnw⟩]
    · rw [if_neg fun hn => his hn.1]
      refine h.lost (by rw [hp]; rfl) i hi (fun hu' => ?_) hnw
      rw [hp] at hu'
      rw [hq] at hu
      exact hu ((List.mem_cons.mp hu').resolve_left his)

/-- A step within the handling of the publish. -/
theorem step (h : x.Handling m vs ys) (ho : x.Owning) {l : BrokerLabel S M}
    (hs : BrokerStep K true x l es y) (hl : ∀ ws, l ≠ .next ws) : y.Handling m vs (ys ++ es) := by
  have hg : ∀ i, x.Gone i → y.Gone i := fun i hi => hi.step ho hs
  cases hs with
  | spawn | act | post => exact h.frame hg rfl rfl (fun _ hp => hp) rfl rfl rfl
  | publish | subscribe | unsubscribe | ping => exact absurd rfl (hl _)
  | upgrade p s todo hp hu => exact h.upgrade hg hp rfl rfl
  | fail p s todo hp hu =>
    exact h.fail hg hp rfl rfl (ho.gone (ho.goes s (by simp [hp, BrokerPhase.weak])) rfl hu)
  | collect p hp | send p s todo z t hp hz ht | «return» p i op todo hp hr =>
    exact h.frame hg rfl rfl (fun _ hpp => by rw [hp]; exact hpp) (by rw [hp]; rfl)
      (by rw [hp]; rfl) (by rw [hp]; rfl)
  | sent p hp =>
    refine h.frame hg rfl rfl (fun _ hpp => by rw [hp]; exact hpp) (by rw [hp]; rfl) ?_
      (by rw [hp]; rfl)
    rw [hp]
    rfl
  | keep p s todo hp hu =>
    -- who can be upgraded is not gone, so it was upgraded before
    have hwon : s.id ∈ Hannibal.won ys := by
      have hs : s.id ∈ vs.map SenderAt.id := h.unseen _ (by rw [hp]; exact List.mem_cons_self)
      rcases h.tried s.id hs with ht | ht | ht | ht
      · rw [hp] at ht
        cases ht
      · exact ht
      · rw [ht.upgrades] at hu
        cases hu
      · rw [hp] at ht
        cases ht
    refine h.retain hg hp rfl rfl fun i => ?_
    rw [if_neg fun hn => hn.2 hwon]
  | prune p s todo hp hu =>
    -- the senders that were upgraded are still there
    have hwon : s.id ∉ Hannibal.won ys := by
      intro hwon
      rw [← (h.values p (by rw [hp]; rfl)).2] at hwon
      obtain ⟨s', hs', hid⟩ := List.mem_map.mp hwon
      obtain ⟨hd, hh, hk⟩ := ho.live s' (by rw [hp]; exact hs')
      have hup := ho.upgrades_of_handle hh (by rw [hk]; rfl)
      rw [hid, hu] at hup
      cases hup
    refine h.retain hg hp rfl rfl fun i => ?_
    show Function.update x.subscribers s.id none i = _
    by_cases hi : i = s.id
    · rw [hi, Function.update_self, if_pos ⟨rfl, hwon⟩]
    · rw [Function.update_of_ne hi, if_neg fun hn => hi hn.1]
  | retained p hp | drop s todo hp =>
    exact h.frame hg rfl rfl (fun _ hpp => by cases hpp) (by rw [hp]; rfl) (by rw [hp]; rfl)
      (by rw [hp]; rfl)
  | finish hp =>
    exact h.frame hg rfl rfl (fun _ hpp => by cases hpp) (by rw [hp]; rfl) (by rw [hp]; rfl)
      (by rw [hp]; rfl)
  | halt hp => exact h.halted rfl
  | unhand s todo hp => exact h.halted rfl

end Handling

/-- Who is recorded as upgraded was tried, and could be. -/
theorem BrokerStep.won {l : BrokerLabel S M} {es : List (BrokerEvent M)}
    (hs : BrokerStep K prunes x l es y) {i : ℕ} (hi : i ∈ Hannibal.won es) :
    ∃ p s todo, l = .poll ∧ x.phase = .upgrading p (s :: todo) ∧ s.id = i ∧
      x.upgrades i = true := by
  cases hs with
  | upgrade p s todo hp hu =>
    obtain rfl : i = s.id := by simpa [Hannibal.won, BrokerEvent.won?] using hi
    exact ⟨p, s, todo, rfl, hp, rfl, hu⟩
  | _ => simp [Hannibal.won, BrokerEvent.won?, List.filterMap_cons] at hi

/-- The event loop of the actor has ended. -/
def Ended (r : Broker S M) (i : ℕ) : Prop :=
  ∃ z, r.actors[i]? = some z ∧ z.sys.hasEnded = true

/-- The handler comes to a subscriber that had ended in `r` only after it has lost its
strong handles. -/
def Dismissed (r x : Broker S M) (l : BrokerLabel S M) (_ : Broker S M) : Prop :=
  l = .poll → ∀ p s todo, x.phase = .upgrading p (s :: todo) → r.Ended s.id →
    x.upgrades s.id = false

section Runs

variable [DecidableEq T]

/-- What a publish has recorded so far, and the map with it. -/
theorem Handling.run {m : ℕ → Option SenderAt} {vs : List SenderAt} (hx : x.Owning)
    (h : x.Handling m vs []) {ls : List (BrokerLabel S M)}
    (hrun : (system K true).run x ls = some q) (hls : ∀ l ∈ ls, ∀ ws, l ≠ .next ws) :
    ∃ ys, q.trace = x.trace ++ ys ∧ q.Handling m vs ys := by
  have hinv := Machine.invariant_along (M := system K true)
    (P := fun y : Broker S M => y.Owning ∧ ∃ ys, y.trace = x.trace ++ ys ∧ y.Handling m vs ys)
    (fun y l z hy hl hst => ?_) ⟨hx, [], (List.append_nil _).symm, h⟩
    (Machine.along_of_forall (M := system K true) hls) hrun
  · exact hinv.2
  · obtain ⟨ho, ys, htr, hh⟩ := hy
    obtain ⟨es, hs⟩ := step_cases hst
    exact ⟨ho.step hs, ys ++ es, by rw [hs.trace, htr, List.append_assoc], hh.step ho hs hl⟩

/-- The handling of a publish begins. -/
theorem Handling.begin (h : Reachable K true r) {msg : M} {rest : List (BrokerMessage M)}
    {vs : List SenderAt} (hm : r.mailbox = .publish msg :: rest)
    (hst : (system K true).step r (.next vs) = some x) :
    r.Enumerates vs ∧ x.Owning ∧ x.Handling r.subscribers vs [] ∧ x.actors = r.actors := by
  have hstep : Broker.step K true r (.next vs) = some x := hst
  obtain ⟨es, hs⟩ := step_cases hstep
  have ho := h.owning.step hs
  cases hs with
  | publish msg' rest' vs hp hm' hv =>
    refine ⟨hv, ho, ?_, rfl⟩
    refine ⟨fun p hp => ?_, fun i hi => .inl hi, fun i hi => hi, fun i hi => hi, ?_, hv.1,
      fun _ i _ => rfl, fun _ i hi hu => absurd hi hu⟩
    · obtain rfl := Option.some_inj.mp hp
      exact ⟨rfl, rfl⟩
    · intro i hi
      cases hi
  | subscribe s rest' vs hp hm' | unsubscribe s rest' vs hp hm' | ping k rest' vs hp hm' =>
    rw [hm] at hm'
    cases hm'

omit [DecidableEq T] in
/-- When the publish has been handled, those are left that were upgraded. -/
theorem Handling.left {ys : List (BrokerEvent M)} {vs : List SenderAt} (ho : r.Owning)
    (hv : r.Enumerates vs) (h : q.Handling r.subscribers vs ys) (hq : q.phase = .idle) (i : ℕ) :
    q.subscribers i = none ↔ i ∉ Hannibal.won ys := by
  have hh : q.phase.isHalted = false := by rw [hq]; rfl
  constructor
  · intro hn hw
    rw [h.kept hh i (.inr (.inr hw))] at hn
    obtain ⟨s, hs, hid⟩ := List.mem_map.mp (h.won i hw)
    rw [← hid, hv.2.1 s hs] at hn
    cases hn
  · intro hw
    by_cases hi : i ∈ vs.map SenderAt.id
    · exact h.lost hh i hi (by rw [hq]; exact List.not_mem_nil) hw
    · -- who is not among the values was not in the map
      rw [h.kept hh i (.inl hi)]
      by_contra hne
      obtain ⟨s, hs⟩ := Option.ne_none_iff_exists'.mp hne
      exact hi (hv.2.2 i (ho.lt_length hs) (by rw [hs]; rfl))

/-- Nobody that has ended is upgraded exactly if the handler comes to each of them when it
has lost its strong handles. -/
theorem unwon_iff {ys : List (BrokerEvent M)} {ls : List (BrokerLabel S M)}
    (hrun : (system K true).run x ls = some q) (htr : q.trace = x.trace ++ ys) :
    (∀ i, r.Ended i → i ∉ won ys) ↔ (system K true).Along (Dismissed r) x ls := by
  constructor
  · intro hno
    refine (Machine.along_of_end (M := system K true)
      (I := fun y : Broker S M => ∃ us, y.trace = x.trace ++ us)
      (P := fun y => ∀ us, y.trace = x.trace ++ us → ∀ i, r.Ended i → i ∉ won us)
      ?_ ?_ ?_ ⟨[], (List.append_nil _).symm⟩ hrun fun us hus => ?_).1
    · rintro y l z ⟨us, hy⟩ hyz
      obtain ⟨es, hs⟩ := step_cases hyz
      exact ⟨us ++ es, by rw [hs.trace, hy, List.append_assoc]⟩
    · intro y l z _ hyz hz us hy i hi hw
      obtain ⟨es, hs⟩ := step_cases hyz
      refine hz (us ++ es) (by rw [hs.trace, hy, List.append_assoc]) i hi ?_
      rw [won_append]
      exact List.mem_append_left _ hw
    · rintro y l z ⟨us, hy⟩ hyz hz rfl p s todo hp hi
      by_contra hu
      -- the upgrade succeeds, so it is recorded
      have hz' : z = y.upgrade p s todo := by
        have hpoll : y.poll K true = some z := hyz
        rw [poll, hp] at hpoll
        exact (Option.some_inj.mp hpoll).symm
      have htz : z.trace = x.trace ++ (us ++ [.upgraded s.id true]) := by
        rw [hz', Broker.upgrade, if_pos (by simpa using hu), ← List.append_assoc, ← hy]
        rfl
      refine hz _ htz s.id hi ?_
      rw [won_append]
      exact List.mem_append_right _ List.mem_cons_self
    · obtain rfl : us = ys := List.append_cancel_left (hus.symm.trans htr)
      exact hno
  · intro hal
    have hinv := Machine.invariant_along (M := system K true)
      (P := fun y : Broker S M => ∃ us, y.trace = x.trace ++ us ∧ ∀ i, r.Ended i → i ∉ won us)
      (fun y l z hy hC hyz => ?_) ⟨[], (List.append_nil _).symm, fun _ _ => List.not_mem_nil⟩
      hal hrun
    · obtain ⟨us, hus, hno⟩ := hinv
      obtain rfl : us = ys := List.append_cancel_left (hus.symm.trans htr)
      exact hno
    · obtain ⟨us, hus, hno⟩ := hy
      obtain ⟨es, hs⟩ := step_cases hyz
      refine ⟨us ++ es, by rw [hs.trace, hus, List.append_assoc], fun i hi hw => ?_⟩
      rw [won_append, List.mem_append] at hw
      rcases hw with hw | hw
      · exact hno i hi hw
      · obtain ⟨p, s, todo, hl, hp, rfl, hu⟩ := hs.won hw
        rw [hC hl p s todo hp hi] at hu
        cases hu

/-- Who is gone is not upgraded any more. -/
theorem Gone.unwon {i : ℕ} (hg : x.Gone i) (hx : x.Owning) {ys : List (BrokerEvent M)}
    {ls : List (BrokerLabel S M)} (hrun : (system K true).run x ls = some q)
    (htr : q.trace = x.trace ++ ys) : i ∉ won ys := by
  have hinv := Machine.invariant (M := system K true)
    (P := fun y : Broker S M => y.Owning ∧ y.Gone i ∧ ∃ us, y.trace = x.trace ++ us ∧ i ∉ won us)
    (fun y l z hy hyz => ?_) ⟨hx, hg, [], (List.append_nil _).symm, List.not_mem_nil⟩ ⟨ls, hrun⟩
  · obtain ⟨-, -, us, hus, hno⟩ := hinv
    obtain rfl : us = ys := List.append_cancel_left (hus.symm.trans htr)
    exact hno
  · obtain ⟨ho, hgy, us, hus, hno⟩ := hy
    obtain ⟨es, hs⟩ := step_cases hyz
    refine ⟨ho.step hs, hgy.step ho hs, us ++ es, by rw [hs.trace, hus, List.append_assoc], ?_⟩
    intro hw
    rw [won_append, List.mem_append] at hw
    rcases hw with hw | hw
    · exact hno hw
    · obtain ⟨p, s, todo, -, -, rfl, hu⟩ := hs.won hw
      rw [hgy.upgrades] at hu
      cases hu

omit [DecidableEq T] in
/-- An actor whose loop saw the end of the mailbox is gone. -/
theorem Owning.gone_of_mailboxEnd (h : r.Owning) {i : ℕ} {z : Spawned S}
    (hz : r.actors[i]? = some z) (hend : .mailboxEnd ∈ z.sys.trace) : r.Gone i := by
  obtain ⟨a, c, hreach⟩ := h.alive i z hz
  refine ⟨z, hz, ?_⟩
  have hsenders := (hreach.drained hend).1
  rw [hreach.counted.senders] at hsenders
  have htx : ¬ (0 < z.sys.arcs.tx ∧ 0 < z.sys.arcs.force) := by
    rintro ⟨ht, -⟩
    rw [Arcs.closures, if_pos ht] at hsenders
    omega
  exact if_neg htx

/-- **The broker forgets exactly the ended subscribers that it cannot upgrade.**  Those
that ended for want of handles are among them, and who is still held strongly stays in
the map. -/
theorem broker_forgets_iff (h : Reachable K true r) {msg : M} {rest : List (BrokerMessage M)}
    {vs : List SenderAt} (hm : r.mailbox = .publish msg :: rest)
    (hst : (system K true).step r (.next vs) = some x) {ls : List (BrokerLabel S M)}
    (hrun : (system K true).run x ls = some q) (hls : ∀ l ∈ ls, ∀ ws, l ≠ .next ws)
    (hq : q.phase = .idle) :
    ((∀ i, r.Ended i → q.subscribers i = none) ↔ (system K true).Along (Dismissed r) x ls) ∧
    (∀ i z, r.actors[i]? = some z → .mailboxEnd ∈ z.sys.trace → q.subscribers i = none) ∧
    ∀ i, subscribed i (takenMsgs q.trace) = true →
      (∃ j hd, handleAt q.actors i j = some hd ∧
        (hd.kind = .addr ∨ hd.kind = .owningAddr ∨ hd.kind = .sender)) →
      q.subscribers i ≠ none := by
  obtain ⟨hv, hox, hbegin, hact⟩ := Handling.begin h hm hst
  obtain ⟨ys, htr, hh⟩ := hbegin.run hox hrun hls
  have hleft := hh.left h.owning hv hq
  refine ⟨?_, fun i z hz hend => ?_, fun i hi hstrong => ?_⟩
  · rw [← unwon_iff hrun htr]
    exact forall_congr' fun i => imp_congr_right fun _ => hleft i
  · rw [hleft]
    have hg : x.Gone i := by
      obtain ⟨z', hz', hu⟩ := h.owning.gone_of_mailboxEnd hz hend
      exact ⟨z', hact ▸ hz', hu⟩
    exact hg.unwon hox hrun htr
  · obtain ⟨j, hd, hhd, hk⟩ := hstrong
    have hreach : Reachable K true q := (h.trans (.single hst)).trans ⟨ls, hrun⟩
    have hup := hreach.owning.upgrades_of_handle hhd (by
      rcases hk with hk | hk | hk <;> rw [hk] <;> rfl)
    refine (hreach.listed.missing i hi).resolve_right fun hp => ?_
    rw [(hreach.listed.gone i hp).upgrades] at hup
    cases hup

end Runs

end Broker

namespace Tally

/-- One tally has subscribed and is stopped, while its `Addr` is still there; then a number is
published. -/
def stoppedListener : List (BrokerLabel listeners ℕ) :=
  [.spawn () plain (0 : ℕ) (0 : ℕ), .actor 0 () (.loop (.hook true)),
    .actor 0 () (.handle (.derive 0 .weakSender)), .post (.subscribe ⟨0, 1⟩), .next [],
    .actor 0 () (.op (.begin .stop 0)), .actor 0 () (.op (.push 0)), .actor 0 () (.loop .recv),
    .actor 0 () (.loop (.hook true)), .actor 0 () (.loop .notify),
    .actor 0 () (.loop .dropContext), .actor 0 () (.loop .release), .post (.publish 7)]

/-- The broker handles the publish; the topic is not taken any more. -/
def handling : List (BrokerLabel listeners ℕ) :=
  [.poll, .poll, .poll, .actor 0 () (.op (.push 1)), .poll, .poll, .poll, .poll, .poll, .poll]

/-- The `Addr` is dropped before the publish, so nothing is upgraded. -/
def handlingNobody : List (BrokerLabel listeners ℕ) :=
  [.poll, .poll, .poll, .poll, .poll, .poll]

end Tally

/-- A subscriber that was stopped stays in the map while it has an `Addr`. -/
theorem not_broker_forgets : ¬ ∀ (r x q : Broker Tally.listeners ℕ) (msg : ℕ)
    (rest : List (BrokerMessage ℕ)) (vs : List SenderAt)
    (ls : List (BrokerLabel Tally.listeners ℕ)), Broker.Reachable Tally.numbers true r →
    r.mailbox = .publish msg :: rest →
    (Broker.system Tally.numbers true).step r (.next vs) = some x →
    (Broker.system Tally.numbers true).run x ls = some q →
    (∀ l ∈ ls, ∀ ws, l ≠ .next ws) → q.phase = .idle →
    ∀ i, r.Ended i → q.subscribers i = none := by
  intro h
  obtain ⟨r, hr, hm, hend, q, hq, hidle, hin⟩ : ∃ r,
      (Broker.system Tally.numbers true).run (Broker.init _ ℕ) Tally.stoppedListener = some r ∧
      r.mailbox = [.publish 7] ∧ r.Ended 0 ∧ ∃ q,
      (Broker.system Tally.numbers true).run r (.next [⟨0, 1⟩] :: Tally.handling) = some q ∧
      q.phase = .idle ∧ q.subscribers 0 = some ⟨0, 1⟩ :=
    ⟨_, rfl, rfl, ⟨_, rfl, rfl⟩, _, rfl, rfl, rfl⟩
  rw [Machine.run_cons] at hq
  obtain ⟨x, hx, hq⟩ := hq
  have hout := h r x q 7 [] _ _ ⟨_, hr⟩ hm hx hq (by simp [Tally.handling]) hidle 0 hend
  rw [hin] at hout
  cases hout

/-- Without the `Addr` it is forgotten. -/
theorem broker_forgets_iff_of_dropped : ∃ r x q : Broker Tally.listeners ℕ,
    (Broker.system Tally.numbers true).run (Broker.init _ ℕ)
      (Tally.stoppedListener ++ [.actor 0 () (.handle (.drop 0))]) = some r ∧
    (Broker.system Tally.numbers true).step r (.next [⟨0, 1⟩]) = some x ∧
    (Broker.system Tally.numbers true).run x Tally.handlingNobody = some q ∧
    ((∀ i, r.Ended i → q.subscribers i = none) ↔
      (Broker.system Tally.numbers true).Along (Broker.Dismissed r) x Tally.handlingNobody) := by
  obtain ⟨r, hr, hm, q, hq, hidle⟩ : ∃ r, (Broker.system Tally.numbers true).run (Broker.init _ ℕ)
      (Tally.stoppedListener ++ [.actor 0 () (.handle (.drop 0))]) = some r ∧
      r.mailbox = [.publish 7] ∧ ∃ q,
      (Broker.system Tally.numbers true).run r (.next [⟨0, 1⟩] :: Tally.handlingNobody) = some q ∧
      q.phase = .idle :=
    ⟨_, rfl, rfl, _, rfl, rfl⟩
  rw [Machine.run_cons] at hq
  obtain ⟨x, hx, hq⟩ := hq
  exact ⟨r, x, q, hr, hx, hq,
    (Broker.broker_forgets_iff ⟨_, hr⟩ hm hx hq (by simp [Tally.handlingNobody]) hidle).1⟩

end Hannibal
