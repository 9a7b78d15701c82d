/-
A broker that never prunes.

`retain` only takes subscribers out of the map that cannot be upgraded, and they
never can again.  So a broker that leaves it out answers every step: where the
pruned map is enumerated it goes through the dead subscribers first, fails to
upgrade them, and is then where the other one is (`unpruned`).
-/
import Hannibal.Subscribers

open scoped List

namespace Hannibal

/-- What the pruning broker and the other one have in common: everything but
failed upgrades and the pruning itself. -/
def BrokerEvent.shown {M : Type} : BrokerEvent M → Bool
  | .upgraded _ false => false
  | .pruned _ => false
  | _ => true

/-- What publishers and subscribers can see of a broker's history. -/
def shown {M : Type} (t : List (BrokerEvent M)) : List (BrokerEvent M) := t.filter BrokerEvent.shown

@[simp] theorem shown_append {M : Type} (t u : List (BrokerEvent M)) :
    shown (t ++ u) = shown t ++ shown u := List.filter_append ..

theorem shown_dead {M : Type} (dead : List SenderAt) :
    shown (dead.map fun s : SenderAt => (.upgraded s.id false : BrokerEvent M)) = [] := by
  rw [shown, List.filter_map]
  simp [Function.comp_def, BrokerEvent.shown]

theorem takenMsgs_shown {M : Type} (t : List (BrokerEvent M)) :
    takenMsgs (shown t) = takenMsgs t := by
  induction t with
  | nil => rfl
  | cons e t ih =>
    rcases e with _ | _ | ⟨k, _ | _⟩ | _ | _ | _
    case taken msg => exact congrArg (msg :: ·) ih
    all_goals exact ih

/-- The phase of a broker that goes through `ws` and leaves out `retain`. -/
def BrokerPhase.unpruned {M : Type} (ws : List SenderAt) : BrokerPhase M → BrokerPhase M
  | .idle => .idle
  | .upgrading p todo => .upgrading { p with values := ws } todo
  | .sending p todo => .sending { p with values := ws } todo
  | .awaiting p i op todo => .awaiting { p with values := ws } i op todo
  | .retaining p _ => .dropping p.live
  | .dropping todo => .dropping todo
  | .halted todo => .halted todo

/-- The phases of the two brokers: the other one skips `retain`, and what it goes
through at the start may be more. -/
inductive Shadows {M : Type} : BrokerPhase M → BrokerPhase M → Prop where
  | idle : Shadows .idle .idle
  | upgrading (msg : M) (vs ws live todo : List SenderAt) :
      Shadows (.upgrading ⟨msg, vs, live⟩ todo) (.upgrading ⟨msg, ws, live⟩ todo)
  | sending (msg : M) (vs ws live todo : List SenderAt) :
      Shadows (.sending ⟨msg, vs, live⟩ todo) (.sending ⟨msg, ws, live⟩ todo)
  | awaiting (msg : M) (vs ws live todo : List SenderAt) (i op : ℕ) :
      Shadows (.awaiting ⟨msg, vs, live⟩ i op todo) (.awaiting ⟨msg, ws, live⟩ i op todo)
  | retaining (p : Publishing M) (todo : List SenderAt) :
      Shadows (.retaining p todo) (.dropping p.live)
  | dropping (todo : List SenderAt) : Shadows (.dropping todo) (.dropping todo)
  | halted (todo : List SenderAt) : Shadows (.halted todo) (.halted todo)

namespace Shadows

variable {M : Type} {p p' : BrokerPhase M}

theorem live (h : Shadows p p') : p'.live = p.live := by
  cases h <;> rfl

theorem send? (h : Shadows p p') : p'.send? = p.send? := by
  cases h <;> rfl

theorem isHalted (h : Shadows p p') : p'.isHalted = p.isHalted := by
  cases h <;> rfl

/-- The one phase gives the other, but for what it goes through. -/
theorem eq (h : Shadows p p') : ∃ ws, p' = p.unpruned ws := by
  cases h with
  | upgrading msg vs ws | sending msg vs ws | awaiting msg vs ws => exact ⟨ws, rfl⟩
  | _ => exact ⟨[], rfl⟩

end Shadows

namespace Broker

variable {T M : Type} {S : Program T} {K : Topic S M} {prunes : Bool} {r q t : Broker S M}

/-- Everything `BrokerStep` lists is a step. -/
theorem BrokerStep.step [DecidableEq T] {l : BrokerLabel S M} {es : List (BrokerEvent M)}
    (h : BrokerStep K prunes r l es q) : step K prunes r l = some q := by
  cases h with
  | act i x l s hx hs ha => simp [Broker.step, hx, ha, hs]
  | post msg ha hp => simp [Broker.step, ha, hp]
  | publish msg rest vs hp hm hv =>
    have hv' : ({ r with mailbox := rest, phase := .idle } : Broker S M).Enumerates vs := hv
    simp [Broker.step, hp, hm, take, hv']
  | subscribe s rest vs hp hm | unsubscribe s rest vs hp hm | ping k rest vs hp hm =>
    simp [Broker.step, hp, hm, take]
  | upgrade p s todo hp hu | fail p s todo hp hu => simp [Broker.step, poll, hp, Broker.upgrade, hu]
  | send p s todo x t hp hx ht => simp [Broker.step, poll, hp, Broker.send, hx, ht]
  | «return» p i op todo hp hr => simp [Broker.step, poll, hp, hr]
  | keep p s todo hp hu | prune p s todo hp hu => simp [Broker.step, poll, hp, retain, hu]
  | halt hp => simp [Broker.step, hp]
  | _ => simp [Broker.step, poll, *]

theorem BrokerStep.reaches [DecidableEq T] {l : BrokerLabel S M} {es : List (BrokerEvent M)}
    (h : BrokerStep K prunes r l es q) : (system K prunes).Reaches r q :=
  .single (M := system K prunes) h.step

/-- The broker fails to upgrade one subscriber after the other. -/
theorem fails [DecidableEq T] (p : Publishing M) (todo : List SenderAt) :
    ∀ (dead : List SenderAt) (t : Broker S M), (∀ s ∈ dead, t.upgrades s.id = false) →
      t.phase = .upgrading p (dead ++ todo) →
        (system K prunes).Reaches t (({ t with phase := .upgrading p todo }).record
          (dead.map fun s : SenderAt => .upgraded s.id false)) := by
  intro dead
  induction dead with
  | nil =>
    intro t _ hp
    have ht : ({ t with phase := .upgrading p todo } : Broker S M).record [] = t := by
      rw [record, List.append_nil]
      exact congrArg (fun x => { t with phase := x }) hp.symm
    rw [List.map_nil, ht]
    exact .refl _ _
  | cons s dead ih =>
    intro t hd hp
    have hstep : (system K prunes).Reaches t _ :=
      (BrokerStep.fail p s (dead ++ todo) hp (hd s List.mem_cons_self)).reaches
    have hrest := ih (({ t with phase := .upgrading p (dead ++ todo) }).record
      [.upgraded s.id false]) (fun s' hs' => hd s' (List.mem_cons_of_mem s hs')) rfl
    refine hstep.trans ?_
    simpa [record] using hrest

/-- The broker `t` never pruned and is otherwise where `r` is: it may have
subscribers more, which are gone. -/
structure Mirrors (r t : Broker S M) : Prop where
  actors : t.actors = r.actors
  mailbox : t.mailbox = r.mailbox
  moved : t.moved = r.moved
  phase : Shadows r.phase t.phase
  trace : shown t.trace = shown r.trace
  subscribers : ∀ i, t.subscribers i = r.subscribers i ∨ r.subscribers i = none ∧ r.Gone i

namespace Mirrors

theorem init (S : Program T) (M : Type) : (Broker.init S M).Mirrors (Broker.init S M) :=
  ⟨rfl, rfl, rfl, .idle, rfl, fun _ => .inl rfl⟩

theorem upgrades (h : r.Mirrors t) (i : ℕ) : t.upgrades i = r.upgrades i := by
  rw [Broker.upgrades, Broker.upgrades, h.actors]

theorem owns (h : r.Mirrors t) (s : SenderAt) : t.owns s = r.owns s := by
  rw [Broker.owns, Broker.owns, h.moved, h.phase.live]

theorem allows (h : r.Mirrors t) (i : ℕ) {A : Actor} (l : Label A) :
    t.allows i l = r.allows i l := by
  simp only [Broker.allows, h.owns, h.phase.send?]

theorem admits (h : r.Mirrors t) (msg : BrokerMessage M) : t.admits msg = r.admits msg := by
  simp only [Broker.admits, h.owns, h.actors]

theorem published (h : r.Mirrors t) : t.published = r.published := by
  have hm := congrArg takenMsgs h.trace
  rw [takenMsgs_shown, takenMsgs_shown] at hm
  exact congrArg (fun ms : List (BrokerMessage M) => (ms.filter BrokerMessage.isPublish).length) hm

/-- The subscribers stay as they are on both sides. -/
theorem keeps (h : r.Mirrors t) (hg : ∀ i, r.Gone i → q.Gone i)
    (hq : q.subscribers = r.subscribers) (i : ℕ) :
    t.subscribers i = q.subscribers i ∨ q.subscribers i = none ∧ q.Gone i := by
  rw [hq]
  exact (h.subscribers i).imp_right fun hn => ⟨hn.1, hg i hn.2⟩

/-- Both brokers take a step and record the same. -/
theorem both [DecidableEq T] {l l' : BrokerLabel S M} {es u : List (BrokerEvent M)}
    {t' : Broker S M} (h : r.Mirrors t) (hr : BrokerStep K true r l es q)
    (ht : BrokerStep K false t l' u t') (hes : shown u = shown es) (ha : t'.actors = q.actors)
    (hm : t'.mailbox = q.mailbox) (hv : t'.moved = q.moved) (hp : Shadows q.phase t'.phase)
    (hs : ∀ i, t'.subscribers i = q.subscribers i ∨ q.subscribers i = none ∧ q.Gone i) :
    ∃ t', (system K false).Reaches t t' ∧ q.Mirrors t' := by
  refine ⟨t', ht.reaches, ha, hm, hv, hp, ?_, hs⟩
  rw [hr.trace, ht.trace, shown_append, shown_append, h.trace, hes]

/-- The other broker has nothing to do in a step that shows nothing. -/
theorem alone [DecidableEq T] {l : BrokerLabel S M} {es : List (BrokerEvent M)} (h : r.Mirrors t)
    (hr : BrokerStep K true r l es q) (hes : shown es = []) (ha : q.actors = r.actors)
    (hm : q.mailbox = r.mailbox) (hv : q.moved = r.moved) (hp : Shadows q.phase t.phase)
    (hs : ∀ i, t.subscribers i = q.subscribers i ∨ q.subscribers i = none ∧ q.Gone i) :
    ∃ t', (system K false).Reaches t t' ∧ q.Mirrors t' := by
  refine ⟨t, .refl _ _, ha ▸ h.actors, hm ▸ h.mailbox, hv ▸ h.moved, hp, ?_, hs⟩
  rw [hr.trace, shown_append, hes, List.append_nil, h.trace]

end Mirrors

/-- The subscribers that only the broker that never prunes still has. -/
def dead (r t : Broker S M) : List SenderAt :=
  (List.range r.actors.length).filterMap fun i =>
    if r.subscribers i = none then t.subscribers i else none

theorem mem_dead (ht : t.Owning) {s : SenderAt} : s ∈ dead r t ↔
    s.id < r.actors.length ∧ r.subscribers s.id = none ∧ t.subscribers s.id = some s := by
  rw [dead, List.mem_filterMap]
  constructor
  · rintro ⟨i, hi, h⟩
    split at h
    · next hn =>
      obtain ⟨rfl, -⟩ := ht.listed i s h
      exact ⟨List.mem_range.mp hi, hn, h⟩
    · cases h
  · rintro ⟨hi, hn, h⟩
    exact ⟨s.id, List.mem_range.mpr hi, by rw [if_pos hn, h]⟩

theorem dead_nodup (ht : t.Owning) : ((dead r t).map SenderAt.id).Nodup := by
  refine (List.nodup_range (n := r.actors.length)).sublist
    (map_filterMap_sublist (fun i s h => ?_) _)
  split at h
  · exact (ht.listed i s h).1
  · cases h

namespace Mirrors

/-- The broker that never prunes goes through the dead subscribers first. -/
theorem enumerates (h : r.Mirrors t) (ht : t.Owning) {vs : List SenderAt} (hv : r.Enumerates vs) :
    t.Enumerates (dead r t ++ vs) := by
  obtain ⟨hnodup, hvs, hall⟩ := hv
  refine ⟨?_, fun s hs => ?_, fun i hi hsome => ?_⟩
  · rw [List.map_append]
    refine List.nodup_append'.mpr ⟨dead_nodup ht, hnodup, fun i hd hl => ?_⟩
    obtain ⟨s, hs, rfl⟩ := List.mem_map.mp hd
    obtain ⟨s', hs', hid⟩ := List.mem_map.mp hl
    have hn := ((mem_dead ht).mp hs).2.1
    rw [← hid, hvs s' hs'] at hn
    cases hn
  · rcases List.mem_append.mp hs with hs | hs
    · exact ((mem_dead ht).mp hs).2.2
    · rcases h.subscribers s.id with he | ⟨hn, -⟩
      · rw [he, hvs s hs]
      · rw [hvs s hs] at hn
        cases hn
  · rw [h.actors] at hi
    rw [List.map_append, List.mem_append]
    by_cases hn : r.subscribers i = none
    · obtain ⟨s, hs⟩ := Option.isSome_iff_exists.mp hsome
      obtain ⟨rfl, -⟩ := ht.listed i s hs
      exact .inl (List.mem_map.mpr ⟨s, (mem_dead ht).mpr ⟨hi, hn, hs⟩, rfl⟩)
    · exact .inr (hall i hi (Option.isSome_iff_ne_none.mpr hn))

/-- The dead subscribers cannot be upgraded. -/
theorem dead_upgrades (h : r.Mirrors t) (ht : t.Owning) {s : SenderAt} (hs : s ∈ dead r t) :
    t.upgrades s.id = false := by
  obtain ⟨-, hn, hsome⟩ := (mem_dead ht).mp hs
  rcases h.subscribers s.id with he | ⟨-, hg⟩
  · rw [he, hn] at hsome
    cases hsome
  · rw [h.upgrades, hg.upgrades]

/-- The subscribers after a step of both that writes none or the same entry. -/
theorem writes (h : r.Mirrors t) (i : ℕ) (v : Option SenderAt) (hg : ∀ i, r.Gone i → q.Gone i)
    (hq : q.subscribers = Function.update r.subscribers i v) (j : ℕ) :
    Function.update t.subscribers i v j = q.subscribers j ∨ q.subscribers j = none ∧ q.Gone j := by
  rw [hq]
  by_cases hij : j = i
  · subst hij
    exact .inl (by rw [Function.update_self, Function.update_self])
  · rw [Function.update_of_ne hij, Function.update_of_ne hij]
    exact (h.subscribers j).imp_right fun hn => ⟨hn.1, hg j hn.2⟩

/-- Who is pruned is gone. -/
theorem clears (h : r.Mirrors t) (hg : ∀ i, r.Gone i → q.Gone i) {j : ℕ} (hj : q.Gone j)
    (hq : q.subscribers = Function.update r.subscribers j none) (i : ℕ) :
    t.subscribers i = q.subscribers i ∨ q.subscribers i = none ∧ q.Gone i := by
  rw [hq]
  by_cases hi : i = j
  · subst hi
    exact .inr ⟨Function.update_self .., hj⟩
  · rw [Function.update_of_ne hi]
    exact (h.subscribers i).imp_right fun hn => ⟨hn.1, hg i hn.2⟩

variable [DecidableEq T]

/-- Both brokers take the next message. -/
theorem step_next {vs : List SenderAt} {es : List (BrokerEvent M)} (h : r.Mirrors t)
    (ho : r.Owning) (ht : t.Owning) (hs : BrokerStep K true r (.next vs) es q) :
    ∃ t', (system K false).Reaches t t' ∧ q.Mirrors t' := by
  have hg : ∀ i, r.Gone i → q.Gone i := fun i hi => hi.step ho hs
  obtain ⟨ws, hx⟩ := h.phase.eq
  have hs' := hs
  cases hs with
  | publish msg rest vs hp hm hv =>
    rw [hp] at hx
    have hpub : BrokerStep K false t _ _ _ := .publish msg rest (dead r t ++ vs) hx
      (h.mailbox.trans hm) (h.enumerates ht hv)
    refine ⟨_, hpub.reaches.trans
      (fails ⟨msg, dead r t ++ vs, []⟩ vs (dead r t) _ (fun s hs => h.dead_upgrades ht hs) rfl),
      h.actors, rfl, h.moved, .upgrading msg vs _ [] vs, ?_, h.keeps hg rfl⟩
    show shown (t.trace ++ _ ++ _) = shown (r.trace ++ _)
    rw [shown_append, shown_append, shown_append, shown_dead, List.append_nil, h.trace]
  | subscribe s rest vs hp hm =>
    rw [hp] at hx
    exact h.both hs' (.subscribe s rest vs hx (h.mailbox.trans hm)) rfl h.actors rfl h.moved h.phase
      (h.writes s.id (some s) hg rfl)
  | unsubscribe s rest vs hp hm =>
    rw [hp] at hx
    exact h.both hs' (.unsubscribe s rest vs hx (h.mailbox.trans hm)) rfl h.actors rfl h.moved
      h.phase (h.writes s.id none hg rfl)
  | ping k rest vs hp hm =>
    rw [hp] at hx
    exact h.both hs' (.ping k rest vs hx (h.mailbox.trans hm)) rfl h.actors rfl h.moved h.phase
      (h.keeps hg rfl)

/-- The handler goes on; `retain` is for the pruning broker alone. -/
theorem step_poll {es : List (BrokerEvent M)} (h : r.Mirrors t) (ho : r.Owning)
    (hs : BrokerStep K true r .poll es q) :
    ∃ t', (system K false).Reaches t t' ∧ q.Mirrors t' := by
  have hg : ∀ i, r.Gone i → q.Gone i := fun i hi => hi.step ho hs
  obtain ⟨ws, hx⟩ := h.phase.eq
  have hs' := hs
  cases hs with
  | upgrade p s todo hp hu =>
    rw [hp] at hx
    refine h.both hs' (.upgrade _ s todo hx (h.upgrades s.id ▸ hu)) rfl
      (congrArg (List.modify · _ _) h.actors) h.mailbox h.moved ?_ (h.keeps hg rfl)
    have hn : t.nextHandle s.id = r.nextHandle s.id := by
      rw [nextHandle, nextHandle, h.actors]
    rw [hn]
    exact .upgrading p.msg p.values ws _ todo
  | fail p s todo hp hu =>
    rw [hp] at hx
    exact h.both hs' (.fail _ s todo hx (h.upgrades s.id ▸ hu)) rfl h.actors h.mailbox h.moved
      (.upgrading ..) (h.keeps hg rfl)
  | collect p hp =>
    rw [hp] at hx
    exact h.both hs' (.collect _ hx) rfl h.actors h.mailbox h.moved (.sending ..) (h.keeps hg rfl)
  | send p s todo x u hp hy hu =>
    rw [hp] at hx
    refine h.both hs' (.send _ s todo x u hx (h.actors ▸ hy) hu) ?_
      (congrArg (List.set · _ _) h.actors) h.mailbox h.moved (.awaiting ..) (h.keeps hg rfl)
    rw [h.published]
  | «return» p i op todo hp hr =>
    rw [hp] at hx
    have hr' : t.returned i op = true := by
      rw [← hr, Broker.returned, Broker.returned, h.actors]
    exact h.both hs' (.return _ i op todo hx hr') rfl h.actors h.mailbox h.moved (.sending ..)
      (h.keeps hg rfl)
  | sent p hp =>
    rw [hp] at hx
    exact h.both hs' (.sent _ hx) rfl h.actors h.mailbox h.moved (.retaining ..) (h.keeps hg rfl)
  | keep p s todo hp hu =>
    rw [hp] at hx
    exact h.alone hs' rfl rfl rfl rfl (hx ▸ .retaining p todo) (h.keeps hg rfl)
  | prune p s todo hp hu =>
    rw [hp] at hx
    have hmem := ho.goes s (by simp [hp, BrokerPhase.weak])
    exact h.alone hs' rfl rfl rfl rfl (hx ▸ .retaining p todo)
      (h.clears hg (hg _ (ho.gone hmem rfl hu)) rfl)
  | retained p hp =>
    rw [hp] at hx
    exact h.alone hs' rfl rfl rfl rfl (hx ▸ .dropping p.live) (h.keeps hg rfl)
  | drop s todo hp =>
    rw [hp] at hx
    exact h.both hs' (.drop s todo hx) rfl (congrArg (List.modify · _ _) h.actors) h.mailbox h.moved
      (.dropping todo) (h.keeps hg rfl)
  | finish hp =>
    rw [hp] at hx
    exact h.both hs' (.finish hx) rfl h.actors h.mailbox h.moved .idle (h.keeps hg rfl)
  | unhand s todo hp =>
    rw [hp] at hx
    exact h.both hs' (.unhand s todo hx) rfl (congrArg (List.modify · _ _) h.actors) h.mailbox
      h.moved (.halted todo) (h.keeps hg rfl)

/-- Every step of the pruning broker is answered. -/
theorem step {l : BrokerLabel S M} {es : List (BrokerEvent M)} (h : r.Mirrors t) (ho : r.Owning)
    (ht : t.Owning) (hs : BrokerStep K true r l es q) :
    ∃ t', (system K false).Reaches t t' ∧ q.Mirrors t' := by
  have hg : ∀ i, r.Gone i → q.Gone i := fun i hi => hi.step ho hs
  have hs' := hs
  cases hs with
  | spawn d E a c =>
    exact h.both hs' (.spawn d E a c) rfl (congrArg (· ++ _) h.actors) h.mailbox h.moved h.phase
      (h.keeps hg rfl)
  | act i x l s hx hst ha =>
    exact h.both hs' (.act i x l s (h.actors ▸ hx) hst (h.allows i l ▸ ha)) rfl
      (congrArg (List.set · _ _) h.actors) h.mailbox h.moved h.phase (h.keeps hg rfl)
  | post msg ha hp =>
    exact h.both hs' (.post msg (h.admits msg ▸ ha) (h.phase.isHalted ▸ hp)) rfl h.actors
      (congrArg (· ++ _) h.mailbox) (congrArg (· ++ _) h.moved) h.phase (h.keeps hg rfl)
  | halt hp =>
    refine h.both hs' (.halt (h.phase.isHalted ▸ hp)) rfl h.actors rfl h.moved ?_ (h.keeps hg rfl)
    rw [h.phase.live]
    exact .halted _
  | publish | subscribe | unsubscribe | ping => exact h.step_next ho ht hs'
  | _ => exact h.step_poll ho hs'

end Mirrors

/-- **Pruning changes nothing**: a broker that never prunes gets to where the
actors, the mailbox and the visible history are the same. -/
theorem Reachable.unpruned [DecidableEq T] (h : Reachable K true r) :
    ∃ t, Reachable K false t ∧ r.Mirrors t := by
  have hstep : ∀ r l q t, r.Owning ∧ Reachable K false t ∧ r.Mirrors t →
      (system K true).step r l = some q →
        ∃ t', (system K false).Reaches t t' ∧ q.Owning ∧ Reachable K false t' ∧ q.Mirrors t' := by
    rintro r l q t ⟨ho, ht, hm⟩ hst
    obtain ⟨es, hs⟩ := step_cases hst
    obtain ⟨t', ht', hm'⟩ := hm.step ho ht.owning hs
    exact ⟨t', ht', ho.step hs, ht.trans ht', hm'⟩
  obtain ⟨t, -, -, hR⟩ := Machine.simulation hstep
    ⟨.init S M, Machine.Reaches.refl _ _, .init S M⟩ h
  exact ⟨t, hR⟩

end Broker

end Hannibal
