/-
The registry keeps its services.

The map of the registry owns an `Addr` of every service that is registered, so the mailbox
of such a service has a sender as long as it stays there, whoever else gives up on it.

* `Locked.settles` — whatever the schedule of those who use the lock and of the actors, the
  lock comes free and all actors come to rest;
* **`services_settle`** — and then a registered service waits and is done with everything it
  accepted, has failed, was told to stop, or ended with its stream.
-/
import Hannibal.Atomicity
import Hannibal.Propagation

namespace Hannibal

/-- A loop that somebody can still send to did not see the end of its mailbox. -/
theorem Environment.Reachable.not_mailboxEnd {A : Actor} {E : Environment A} {a : A.State}
    {c : A.Ctx} {s : Sys A} (h : E.Reachable a c s) {i : ℕ} {hd : Handle}
    (hh : s.handle? i = some hd) (hk : hd.kind = .addr) : .mailboxEnd ∉ s.trace := by
  intro hend
  have hsenders := (h.drained hend).1
  rw [h.counted.senders] at hsenders
  -- the handle keeps the closures, and the closures keep a sender
  obtain ⟨htx, hforce⟩ := h.counted.handle_le hh
  have hcap : HandleKind.addr.captures.tx = 1 ∧ HandleKind.addr.captures.force = 1 := by decide
  rw [hk] at htx hforce
  have hpos : 0 < s.arcs.tx := by omega
  rw [Arcs.closures, if_pos hpos] at hsenders
  omega

/-- The service still waits, and is done with everything that it accepted; or its loop was
told to stop, and is done with what came before, or has failed, or ended with its stream. -/
structure Spawned.Upheld {T : Type} {S : Program T} (x : Spawned S) : Prop where
  waits : x.sys.phase.isEnded = false →
    concluded x.sys.trace = (accepted x.sys.trace).filterMap Envelope.work?
  stopped : ∀ a, x.sys.phase = .ended (.ok a) → .streamEnd ∉ x.sys.trace →
    ∃ l e, e.payload = .stop ∧ taken x.sys.trace = l ++ [e] ∧
      (∀ e' ∈ l, e'.payload ≠ .stop) ∧ concluded x.sys.trace = l.map Envelope.id

namespace Registry

variable {T : Type} [DecidableEq T] {S : Program T} {r : Registry S}

/-- A registered service has not lost its last sender. -/
theorem Safe.registered (h : r.Safe) {t : T} {b : Boxed T} (hb : r.map t = some b) :
    ∃ x : Spawned S, r.actors[b.id]? = some x ∧ x.type = t ∧ .mailboxEnd ∉ x.sys.trace := by
  obtain ⟨rfl, hheld⟩ := h.typed t b hb
  obtain ⟨x, hd, hx, htype, hh, hk⟩ := holds_iff.mp hheld
  obtain ⟨a, c, hreach⟩ := h.alive b.id x hx
  exact ⟨x, hx, htype, hreach.not_mailboxEnd hh hk⟩

/-- Where it rests a registered service is upheld. -/
theorem Safe.upheld (h : r.Safe) (hrest : ∀ x ∈ r.actors, x.sys.AtRest) {t : T} {b : Boxed T}
    (hb : r.map t = some b) :
    ∃ x : Spawned S, r.actors[b.id]? = some x ∧ x.type = t ∧ x.Upheld := by
  obtain ⟨x, hx, htype, hmail⟩ := h.registered hb
  obtain ⟨a, c, hreach⟩ := h.alive b.id x hx
  refine ⟨x, hx, htype, (hrest x (List.mem_of_getElem? hx)).handled, fun a' hp hstream => ?_⟩
  obtain ⟨l, hl, hdone, ⟨e, he, htaken⟩ | ⟨-, hend | hend⟩⟩ := hreach.ended_taken hp
  · exact ⟨l, e, he, htaken, hl, hdone⟩
  · exact absurd hend hmail
  · exact absurd hend hstream

end Registry

namespace Locked

variable {T : Type} [DecidableEq T] {S : Program T} {k m : Locked S}

/-- The step goes on with something that was begun, at the lock or in an actor. -/
def works (k : Locked S) : LockedLabel S → Bool
  | .actor i t l => Spawned.worksAt k.registry.actors i t l
  | l => l.works

theorem works_of_label {l : LockedLabel S} (h : l.works = true) : k.works l = true := by
  cases l <;> first | exact h | cases h

/-- Those who use the lock give it up, and each step of an actor leaves less for it. -/
theorem descends {rank : ∀ t, (S.actor t).Fut → ℕ} (hf : ∀ t, (S.actor t).Finishing (rank t))
    (hg : k.Guards) {l : LockedLabel S} (hw : k.works l = true)
    (hst : (Locked.system S).step k l = some m) :
    Prod.Lex (· < ·) (· < ·) (m.cost, Spawned.totalCost rank m.registry.actors)
      (k.cost, Spawned.totalCost rank k.registry.actors) := by
  by_cases hl : l.works = true
  · -- the lock may spawn a service, which is why it comes first
    exact .left _ _ (works_cost hg hl hst)
  · cases takes hst with
    | actor i t l r hu hr =>
      obtain ⟨es, hs⟩ := Registry.step_cases hr
      cases hs with
      | act i x l s hx hs hu' =>
        have hsilent : x.sys.worksSilent l = true := (Spawned.worksAt_eq hx l).symm.trans hw
        exact .right _ (Spawned.totalCost_set hf hx hsilent hs)
    | spawn | write | read | tryFromRegistry => cases hw
    | enter | commit | unlock | unread => exact absurd rfl hl

/-- Where nobody can go on all actors rest. -/
theorem quiet_atRest (hW : ∀ t, Nonempty (S.actor t).World) (hg : k.Guards)
    (hq : (Locked.system S).Quiet works k) : ∀ x ∈ k.registry.actors, x.sys.AtRest := by
  intro x hx
  obtain ⟨i, hi⟩ := List.mem_iff_getElem?.mp hx
  refine Spawned.Alive.atRest hW (hg.safe.alive i x hi) fun l hl => ?_
  have hnone := hq (.actor i x.type l) ((Spawned.worksAt_eq hi l).trans hl)
  -- it uses no `Addr`, so neither the map nor an operation stands in its way
  obtain ⟨huses, -⟩ := Sys.worksSilent_uses hl
  simpa [Locked.system, Locked.step, Registry.step, hi, huses] using hnone

/-- Whatever the schedule, the lock comes free and all actors come to rest. -/
theorem settles (hW : ∀ t, Nonempty (S.actor t).World) {rank : ∀ t, (S.actor t).Fut → ℕ}
    (hf : ∀ t, (S.actor t).Finishing (rank t)) (hg : k.Guards) (hw : k.Waits) :
    (Locked.system S).Inevitably works
      (fun m => m.Guards ∧ m.writer = none ∧ m.readers = [] ∧
        ∀ x ∈ m.registry.actors, x.sys.AtRest) k := by
  refine (Machine.inevitably_quiet (WellFounded.prod_lex Nat.lt_wfRel.wf Nat.lt_wfRel.wf)
    (I := fun m : Locked S => m.Guards ∧ m.Waits)
    (fun m : Locked S => (m.cost, Spawned.totalCost rank m.registry.actors))
    ?_ ?_ ⟨hg, hw⟩).mono ?_
  · rintro m l n ⟨hg, hw⟩ - hst
    exact ⟨hg.step hst, hw.step hg hst⟩
  · exact fun m l n hm hl hst => descends hf hm.1 hl hst
  · rintro m ⟨⟨hg, hw⟩, hq⟩
    obtain ⟨hfree, hnil⟩ := quiet_free hg hw fun l hl => hq l (works_of_label hl)
    exact ⟨hg, hfree, hnil, quiet_atRest hW hg hq⟩

end Locked

/-- **The registry keeps its services.**  Whatever the schedule, the lock comes free and all
actors come to rest; and no registered service has ended because nobody held it: it waits
and is done with everything it accepted, unless it failed, was told to stop, or ended with
its stream. -/
theorem services_settle {T : Type} [DecidableEq T] {S : Program T}
    (hW : ∀ t, Nonempty (S.actor t).World) {rank : ∀ t, (S.actor t).Fut → ℕ}
    (hf : ∀ t, (S.actor t).Finishing (rank t)) {k : Locked S}
    (h : (Locked.system S).Reaches (.init S) k) :
    (Locked.system S).Inevitably Locked.works
      (fun m => m.writer = none ∧ m.readers = [] ∧ (∀ x ∈ m.registry.actors, x.sys.AtRest) ∧
        ∀ t b, m.registry.map t = some b →
          ∃ x, m.registry.actors[b.id]? = some x ∧ x.type = t ∧ x.Upheld) k := by
  obtain ⟨hg, hw⟩ := Locked.sound h
  refine (Locked.settles hW hf hg hw).mono ?_
  rintro m ⟨hg, hfree, hnil, hrest⟩
  exact ⟨hfree, hnil, hrest, fun t b hb => hg.safe.upheld hrest hb⟩

namespace Patient

/-- A lookup spawns a service; whoever looked it up sends to it and gives its `Addr` up, and
is still inside the lock. -/
def keeping : List (LockedLabel listeners) :=
  [.write (.fromRegistry ()), .enter, .commit, .actor 0 () (.op (.begin (.forceSend (1 : ℕ)) 1)),
    .actor 0 () (.op (.push 0)), .actor 0 () (.handle (.drop 1))]

end Patient

theorem services_settle_of_keeping : ∃ k : Locked Patient.listeners,
    (Locked.system Patient.listeners).run (.init Patient.listeners) Patient.keeping = some k ∧
    k.writer = some .inside ∧ k.registry.map () = some ⟨(), 0, 2⟩ ∧
    (Locked.system Patient.listeners).Inevitably Locked.works
      (fun m => m.writer = none ∧ m.readers = [] ∧ (∀ x ∈ m.registry.actors, x.sys.AtRest) ∧
        ∀ t b, m.registry.map t = some b →
          ∃ x, m.registry.actors[b.id]? = some x ∧ x.type = t ∧ x.Upheld) k :=
  ⟨_, rfl, rfl, rfl, services_settle (fun _ => ⟨()⟩) (fun _ => Patient.finishing)
    ⟨Patient.keeping, rfl⟩⟩

end Hannibal
