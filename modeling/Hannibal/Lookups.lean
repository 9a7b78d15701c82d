/-
Lookups that do not wait.

`try_from_registry` asks for the lock with `try_read` and gives up where a
writer has claimed it.  `Locked` is the registry behind that lock: a task whose
turn it is to write claims the lock, waits until the readers have left, looks at
the map, and keeps the lock until its guard is dropped, whether it writes or
not.  `already_running` is the one operation that reads.

* `lookup_contract` — a registered instance that runs is found whenever nobody
  has claimed the lock, and no operation on another service changes that.
-/
import Hannibal.Freshness

namespace Hannibal

/-- A task that has claimed the write lock: the readers have to leave, or the
map has been looked at. -/
inductive Writer (T : Type) where
  | waiting (op : RegistryOp T)
  | inside
  deriving DecidableEq, Repr

/-- The registry behind its lock, with the answers of `try_from_registry`. -/
structure Locked {T : Type} (S : Program T) where
  registry : Registry S
  writer : Option (Writer T)
  readers : List T
  tries : List (T × Option ℕ)

inductive LockedLabel {T : Type} (S : Program T) where
  | spawn (t : T) (E : Environment (S.actor t)) (a : (S.actor t).State) (c : (S.actor t).Ctx)
  | actor (i : ℕ) (t : T) (l : Label (S.actor t))
  | write (op : RegistryOp T)
  | enter
  | commit
  | unlock
  | read (t : T)
  | unread (i : ℕ)
  | tryFromRegistry (t : T)

/-- The `Addr` that waits with its operation for the readers to leave. -/
def Writer.self? {T : Type} : Writer T → Option (Boxed T)
  | .waiting op => op.self?
  | .inside => none

namespace Locked

variable {T : Type} [DecidableEq T] {S : Program T}

def init (S : Program T) : Locked S := ⟨.init S, none, [], []⟩

/-- `REGISTRY.try_read()?.get(&key)`, as far as `cloned` -/
def lookup (k : Locked S) (t : T) : Option (Boxed T) :=
  match k.writer with
  | some _ => none
  | none => ((k.registry.map t).bind (Registry.downcast t)).filter k.registry.running

/-- `Broker::try_publish`: the send that it goes on to, on the `Addr` it got. -/
def tryPublish (k : Locked S) (t : T) (topic : (S.actor t).Message) :
    Option (RegistryLabel S) :=
  (k.lookup t).map fun b =>
    .actor b.id t (.op (.begin (.send topic) (k.registry.cloned b).handle))

def step (k : Locked S) : LockedLabel S → Option (Locked S)
  | .spawn t E a c =>
    (Registry.step k.registry (.spawn t E a c)).map fun r => { k with registry := r }
  | .actor i t l =>
    if l.uses.any fun h => k.writer.bind Writer.self? = some ⟨t, i, h⟩ then none
    else (Registry.step k.registry (.actor i t l)).map fun r => { k with registry := r }
  | .write op =>
    if k.writer = none && k.registry.admits op then some { k with writer := some (.waiting op) }
    else none
  | .enter =>
    match k.writer with
    | some (.waiting op) =>
      if k.readers.isEmpty then
        (Registry.step k.registry (.enter op)).map fun r =>
          { k with registry := r, writer := some .inside }
      else none
    | _ => none
  | .commit => (Registry.step k.registry .commit).map fun r => { k with registry := r }
  | .unlock =>
    if k.writer = some .inside && k.registry.lock = none then some { k with writer := none }
    else none
  | .read t => if k.writer = none then some { k with readers := k.readers ++ [t] } else none
  | .unread i =>
    if i < k.readers.length then some { k with readers := k.readers.eraseIdx i } else none
  | .tryFromRegistry t =>
    some { k with
      registry := if k.writer = none then k.registry.tryFromRegistry t else k.registry
      tries := k.tries ++ [(t, (k.lookup t).map Boxed.id)] }

/-- All interleavings of the tasks that use the registry with the actors. -/
def system (S : Program T) : Machine (Locked S) (LockedLabel S) := ⟨step⟩

end Locked

/-! ### What one step does to the registry -/

namespace Registry

open Spawned (Later)

variable {T : Type} [DecidableEq T] {S : Program T} {r q : Registry S}

namespace RegistryStep

variable {l : RegistryLabel S} {es : List (RegistryEvent T)}

theorem later (h : RegistryStep r l es q) : Later (fun _ _ => False) r.actors q.actors := by
  cases h with
  | spawn t E a c => exact .spawn ⟨a, c, .refl _ _⟩
  | act i x l s hx hs hu => exact .set hx (.of_step hs) (fun _ _ h => h.elim)
  | hands t b hl hm ht hr => exact derive_later r b.id b.handle .addr
  | tries t b hl hm ht hr => exact derive_later r b.id b.handle .addr
  | misses t hd => exact .refl _ _
  | refuses self hl ha hd => exact (drop_later r self).mono (fun _ _ h => h.elim)
  | locks op hl ha hd => exact .refl _ _
  | registers self hl => exact insert_later r self
  | replaces self hl =>
    refine (insert_later r self).trans (.mono (P := Spares self) ?_ (fun _ _ h => h.elim))
    exact drop_later { r.insert self with lock := none } self
  | unregisters t hl => exact .refl _ _
  | respawns t hl =>
    refine (spawnService_later r t).trans ((insert_later _ ⟨t, r.actors.length, 1⟩).trans ?_)
    exact discard_later _ (r.map t) (fun _ _ _ _ h => h.elim)

/-- The lock is taken by the operation that enters. -/
theorem lock_cases (h : RegistryStep r l es q) {op : RegistryOp T} (hq : q.lock = some op) :
    r.lock = some op ∨ l = .enter op := by
  cases h with
  | locks op' hl ha hd =>
    obtain rfl := Option.some_inj.mp hq
    exact .inr rfl
  | registers self hl => cases hq
  | replaces self hl => cases hq
  | unregisters t hl => cases hq
  | respawns t hl => cases hq
  | _ => exact .inl hq

/-- Only a `replace` or an `unregister` takes an entry that has not ended. -/
theorem overridden (h : RegistryStep r l es q) {t : T}
    (hm : (∃ new old, .replaced new old ∈ es ∧ new.type = t) ∨ ∃ old, .unregistered t old ∈ es) :
    ∃ op, r.lock = some op ∧ op.overrides = true ∧ op.key = t := by
  cases h with
  | act i x l s hx hs hu =>
    rcases hm with ⟨new, old, hm, -⟩ | ⟨old, hm⟩ <;> split at hm <;> simp at hm
  | replaces self hl =>
    rcases hm with ⟨new, old, hm, ht⟩ | ⟨old, hm⟩
    · simp only [List.mem_singleton, RegistryEvent.replaced.injEq] at hm
      refine ⟨_, hl, rfl, ?_⟩
      rw [← ht, hm.1]
      rfl
    · simp at hm
  | unregisters t' hl =>
    rcases hm with ⟨new, old, hm, ht⟩ | ⟨old, hm⟩
    · simp at hm
    · simp only [List.mem_singleton, RegistryEvent.unregistered.injEq] at hm
      exact ⟨_, hl, rfl, hm.1.symm⟩
  | _ => simp at hm

end RegistryStep

end Registry

/-! ### Operations on other services -/

/-- The step does not start a `replace` or an `unregister` of `t`. -/
def LockedLabel.Spares {T : Type} {S : Program T} (t : T) : LockedLabel S → Prop
  | .write op => op.overrides = true → op.key ≠ t
  | _ => True

namespace Locked

variable {T : Type} [DecidableEq T] {S : Program T} {k m : Locked S}

/-- No `replace` or `unregister` of `t` is in progress. -/
structure Idle (k : Locked S) (t : T) : Prop where
  waiting : ∀ op, k.writer = some (.waiting op) → op.overrides = true → op.key ≠ t
  locked : ∀ op, k.registry.lock = some op → op.overrides = true → op.key ≠ t

/-- What one step does: the registry takes a step of its own in which nobody
enters, somebody moves at the lock, or neither. -/
inductive LockedStep (k : Locked S) : LockedLabel S → Locked S → Prop where
  | registry (l : LockedLabel S) (l' : RegistryLabel S) (r : Registry S) (ts : List (T × Option ℕ))
      (h : Registry.step k.registry l' = some r) (hl : ∀ op, l' ≠ .enter op) :
      LockedStep k l { k with registry := r, tries := ts }
  | write (op : RegistryOp T) (hw : k.writer = none) :
      LockedStep k (.write op) { k with writer := some (.waiting op) }
  | enter (l : LockedLabel S) (op : RegistryOp T) (r : Registry S)
      (hw : k.writer = some (.waiting op)) (h : Registry.step k.registry (.enter op) = some r) :
      LockedStep k l { k with registry := r, writer := some .inside }
  | unlock (l : LockedLabel S) (hl : k.registry.lock = none) :
      LockedStep k l { k with writer := none }
  | other (l : LockedLabel S) (rs : List T) (ts : List (T × Option ℕ)) :
      LockedStep k l { k with readers := rs, tries := ts }

theorem step_cases {l : LockedLabel S} (h : Locked.step k l = some m) : LockedStep k l m := by
  cases l with
  | spawn t E a c =>
    simp only [Locked.step] at h
    obtain ⟨r, hr, rfl⟩ := Option.map_eq_some_iff.mp h
    exact .registry _ _ r k.tries hr (fun op ho => by cases ho)
  | actor i t l =>
    simp only [Locked.step] at h
    split at h
    · cases h
    · obtain ⟨r, hr, rfl⟩ := Option.map_eq_some_iff.mp h
      exact .registry _ _ r k.tries hr (fun op ho => by cases ho)
  | write op =>
    simp only [Locked.step] at h
    split at h
    · next hg =>
      simp only [Bool.and_eq_true, decide_eq_true_eq] at hg
      cases h
      exact .write op hg.1
    · cases h
  | enter =>
    simp only [Locked.step] at h
    split at h
    · next op hw =>
      split at h
      · obtain ⟨r, hr, rfl⟩ := Option.map_eq_some_iff.mp h
        exact .enter _ op r hw hr
      · cases h
    · cases h
  | commit =>
    simp only [Locked.step] at h
    obtain ⟨r, hr, rfl⟩ := Option.map_eq_some_iff.mp h
    exact .registry _ _ r k.tries hr (fun op ho => by cases ho)
  | unlock =>
    simp only [Locked.step] at h
    split at h
    · next hg =>
      simp only [Bool.and_eq_true, decide_eq_true_eq] at hg
      cases h
      exact .unlock _ hg.2
    · cases h
  | read t =>
    simp only [Locked.step] at h
    split at h
    · cases h
      exact .other _ _ k.tries
    · cases h
  | unread i =>
    simp only [Locked.step] at h
    split at h
    · cases h
      exact .other _ _ k.tries
    · cases h
  | tryFromRegistry t =>
    simp only [Locked.step, Option.some_inj] at h
    subst h
    by_cases hw : k.writer = none
    · rw [if_pos hw]
      exact .registry _ (.tryFromRegistry t) _ _ rfl (fun op ho => by cases ho)
    · rw [if_neg hw]
      exact .other _ k.readers _

/-- The registry behind the lock takes a step of its own, or none. -/
theorem registry_step {l : LockedLabel S} (h : Locked.step k l = some m) :
    m.registry = k.registry ∨ ∃ l', Registry.step k.registry l' = some m.registry := by
  cases step_cases h with
  | registry _ l' r ts hr hl => exact .inr ⟨l', hr⟩
  | enter _ op r hw hr => exact .inr ⟨_, hr⟩
  | write op hw => exact .inl rfl
  | unlock _ hl => exact .inl rfl
  | other _ rs ts => exact .inl rfl

/-- The registry is safe behind its lock, and what holds the registry's lock has
claimed this one. -/
structure Guards (k : Locked S) : Prop where
  safe : k.registry.Safe
  inside : ∀ op, k.registry.lock = some op → k.writer = some .inside

theorem Guards.step {l : LockedLabel S} (h : k.Guards) (hst : Locked.step k l = some m) :
    m.Guards := by
  constructor
  · rcases registry_step hst with hr | ⟨l', hr⟩
    · rw [hr]
      exact h.safe
    · exact Registry.safe_step h.safe hr
  · intro op ho
    cases step_cases hst with
    | registry _ l' r ts hr hl =>
      obtain ⟨es, hs⟩ := Registry.step_cases hr
      rcases hs.lock_cases ho with ho | ho
      · exact h.inside op ho
      · exact absurd ho (hl op)
    | write op' hw =>
      have hin := h.inside op ho
      rw [hw] at hin
      cases hin
    | enter _ op' r hw hr => rfl
    | unlock _ hl =>
      change k.registry.lock = some op at ho
      rw [hl] at ho
      cases ho
    | other _ rs ts => exact h.inside op ho

theorem guards_of_run {ls : List (LockedLabel S)} (hg : k.Guards)
    (h : (system S).run k ls = some m) : m.Guards :=
  Machine.invariant (P := Guards) (fun _ _ _ hk hst => hk.step hst) hg ⟨ls, h⟩

theorem guards {ls : List (LockedLabel S)} (h : (system S).run (init S) ls = some k) :
    k.Guards :=
  guards_of_run ⟨Registry.Safe.init S, fun op ho => by cases ho⟩ h

theorem Idle.step {t : T} (h : k.Idle t) {l : LockedLabel S} (hst : Locked.step k l = some m)
    (hl : l.Spares t) : m.Idle t := by
  cases step_cases hst with
  | registry _ l' r ts hr hno =>
    refine ⟨h.waiting, fun op ho => ?_⟩
    obtain ⟨es, hs⟩ := Registry.step_cases hr
    rcases hs.lock_cases ho with ho | ho
    · exact h.locked op ho
    · exact absurd ho (hno op)
  | write op' hw =>
    refine ⟨fun op ho => ?_, h.locked⟩
    cases ho
    exact hl
  | enter _ op' r hw hr =>
    refine ⟨fun op ho => (by cases ho), fun op ho => ?_⟩
    obtain ⟨es, hs⟩ := Registry.step_cases hr
    rcases hs.lock_cases ho with ho | ho
    · exact h.locked op ho
    · cases ho
      exact h.waiting op' hw
  | unlock _ hno => exact ⟨fun op ho => (by cases ho), h.locked⟩
  | other _ rs ts => exact ⟨h.waiting, h.locked⟩

theorem hasEnded_step {l : LockedLabel S} (h : k.Guards) (hst : Locked.step k l = some m) {i : ℕ}
    (he : k.registry.hasEnded i = true) : m.registry.hasEnded i = true := by
  rcases registry_step hst with hr | ⟨l', hr⟩
  · rwa [hr]
  · obtain ⟨es, hs⟩ := Registry.step_cases hr
    exact Registry.hasEnded_later hs.later h.safe.alive he

/-- While no operation on `t` overrides it, an entry that has not ended stays. -/
theorem Idle.entry {t : T} (h : k.Idle t) {l : LockedLabel S} (hsafe : k.registry.Safe)
    (hst : Locked.step k l = some m) {b : Boxed T} (hb : k.registry.map t = some b)
    (he : k.registry.hasEnded b.id = false) : m.registry.map t = some b := by
  rcases registry_step hst with hr | ⟨l', hr⟩
  · rwa [hr]
  · obtain ⟨es, hs⟩ := Registry.step_cases hr
    have hover : ¬ ∃ op, k.registry.lock = some op ∧ op.overrides = true ∧ op.key = t := by
      rintro ⟨op, hl, ho, ht⟩
      exact h.locked op hl ho ht
    rcases hsafe.leaves hs hb with hq | hend | ⟨new, hm, ht⟩ | hm
    · exact hq
    · rw [he] at hend
      cases hend
    · exact absurd (hs.overridden (.inl ⟨new, _, hm, ht⟩)) hover
    · exact absurd (hs.overridden (.inr ⟨_, hm⟩)) hover

/-- Along steps that start no `replace` or `unregister` of `t`, an entry stays
until its actor ends. -/
theorem entry_run {t : T} {b : Boxed T} {ls : List (LockedLabel S)} (hg : k.Guards)
    (h : k.Idle t) (hb : k.registry.map t = some b) (hls : ∀ l ∈ ls, l.Spares t)
    (hrun : (system S).run k ls = some m) (he : m.registry.hasEnded b.id = false) :
    m.registry.map t = some b := by
  have hinv : m.Guards ∧ m.Idle t ∧
      (m.registry.map t = some b ∨ m.registry.hasEnded b.id = true) := by
    refine Machine.invariant_along (C := fun _ l _ => l.Spares t)
      (P := fun q : Locked S => q.Guards ∧ q.Idle t ∧
        (q.registry.map t = some b ∨ q.registry.hasEnded b.id = true))
      (fun s l q hs hC hst => ?_) ⟨hg, h, .inl hb⟩ (Machine.along_of_forall hls) hrun
    obtain ⟨hg, hidle, hs⟩ := hs
    refine ⟨hg.step hst, hidle.step hst hC, ?_⟩
    by_cases hend : s.registry.hasEnded b.id = true
    · exact .inr (hasEnded_step hg hst hend)
    · rw [Bool.not_eq_true] at hend
      rcases hs with hs | hs
      · exact .inl (hidle.entry hg.safe hst hs hend)
      · rw [hend] at hs
        cases hs
  rcases hinv.2.2 with hm | hm
  · exact hm
  · rw [he] at hm
    cases hm

/-! ### Non-blocking lookups -/

theorem lookup_eq {t : T} {b : Boxed T} (h : k.registry.Safe) (hb : k.registry.map t = some b)
    (hr : k.registry.running b = true) :
    k.lookup t = if k.writer = none then some b else none := by
  unfold lookup
  cases hw : k.writer with
  | none =>
    rw [if_pos rfl]
    exact Registry.lookup_eq_some.mpr ⟨hb, (h.typed t b hb).1, hr⟩
  | some w => rw [if_neg nofun]

/-- What has not ended counts as running. -/
theorem running_of_not_ended (h : k.registry.Safe) {b : Boxed T}
    (he : k.registry.hasEnded b.id = false) : k.registry.running b = true := by
  by_contra hr
  rw [Bool.not_eq_true, ← Registry.stopped_iff] at hr
  rw [h.hasEnded_of_stopped hr] at he
  cases he

theorem lookup_eq_none (h : k.registry.Safe) {t : T} :
    k.lookup t = none ↔
      k.writer ≠ none ∨ ∀ b, k.registry.map t = some b → k.registry.running b = false := by
  constructor
  · intro hn
    by_cases hw : k.writer = none
    · refine .inr fun b hb => ?_
      by_contra hr
      rw [lookup_eq h hb (by simpa using hr), if_pos hw] at hn
      cases hn
    · exact .inl hw
  · intro hor
    unfold lookup
    cases hw : k.writer with
    | some w => rfl
    | none =>
      rcases hor with hn | hall
      · exact absurd hw hn
      · by_contra hne
        obtain ⟨b, hb⟩ := Option.ne_none_iff_exists'.mp hne
        obtain ⟨hm, -, hr⟩ := Registry.lookup_eq_some.mp hb
        rw [hall b hm] at hr
        cases hr

/-- What `try_from_registry` and `try_publish` promise in the state `k`. -/
structure LookupContract (k : Locked S) : Prop where
  found : ∀ t b, k.registry.map t = some b → k.registry.running b = true → ∃ m,
    step k (.tryFromRegistry t) = some m ∧
    m.tries = k.tries ++ [(t, if k.writer = none then some b.id else none)] ∧
    (k.writer = none → m.registry.holds (k.registry.cloned b) = true)
  dropped : ∀ t (topic : (S.actor t).Message), k.tryPublish t topic = none ↔
    k.writer ≠ none ∨ ∀ b, k.registry.map t = some b → k.registry.running b = false
  unaffected : ∀ t b ls m, k.registry.map t = some b → k.Idle t →
    (∀ l ∈ ls, LockedLabel.Spares t l) → (system S).run k ls = some m →
    m.registry.hasEnded b.id = false →
    m.lookup t = if m.writer = none then some b else none

/-- **Non-blocking lookups.**  In every state of every run: a registered instance
that runs is found by `try_from_registry` exactly if no task has claimed the
registry's lock, and only if one has, or no broker runs, does `try_publish`
drop its topic; and whatever happens to other services, lookups of this one
keep finding the same instance until it ends. -/
theorem lookup_contract {ls : List (LockedLabel S)} (h : (system S).run (init S) ls = some k) :
    k.LookupContract := by
  have hg := guards h
  refine ⟨fun t b hb hr => ⟨_, rfl, ?_, fun hw => ?_⟩, fun t topic => ?_, ?_⟩
  · show k.tries ++ [(t, (k.lookup t).map Boxed.id)] = _
    rw [lookup_eq hg.safe hb hr]
    split <;> rfl
  · have hl : k.registry.lock = none := by
      by_contra hne
      obtain ⟨op, ho⟩ := Option.ne_none_iff_exists'.mp hne
      have := hg.inside op ho
      rw [hw] at this
      cases this
    have hf := Registry.lookup_eq_some.mpr ⟨hb, (hg.safe.typed t b hb).1, hr⟩
    show (ite _ (k.registry.tryFromRegistry t) _).holds _ = true
    rw [if_pos hw, Registry.tryFromRegistry, hl]
    simp only [hf]
    exact Registry.insert_holds (hg.safe.typed t b hb).2
  · rw [tryPublish, Option.map_eq_none_iff]
    exact lookup_eq_none hg.safe
  · intro t b ls m hb hidle hls hrun he
    have hm := (guards_of_run hg hrun).safe
    exact lookup_eq hm (entry_run hg hidle hb hls hrun he) (running_of_not_ended hm he)

end Locked

/-! ### Two services -/

namespace Tally

/-- Two service types, both the tally. -/
def twoServices : Program Bool := ⟨fun _ => tally, fun _ => (0 : ℕ)⟩

/-- The service `true` is registered by its first lookup, then somebody else
looks up the service `false`. -/
def lookups : List (LockedLabel twoServices) :=
  [.write (.fromRegistry true), .enter, .commit, .unlock, .write (.fromRegistry false)]

end Tally

namespace Locked

/-- The lookup of one service hides the other, and a topic for it is dropped. -/
theorem not_lookup_contract : ¬ ∀ (ls : List (LockedLabel Tally.twoServices))
    (k : Locked Tally.twoServices), (system Tally.twoServices).run (init Tally.twoServices) ls =
      some k → ∀ t b, k.registry.map t = some b → k.registry.hasEnded b.id = false →
      (∀ op, k.writer = some (.waiting op) → op.key ≠ t) → k.lookup t = some b := by
  intro h
  have hfound := h Tally.lookups _ rfl true ⟨true, 0, 2⟩ rfl rfl (by rintro _ ⟨⟩; decide)
  exact absurd hfound (by decide)

/-- Once the other lookup is done the service is found again. -/
theorem lookup_contract_of_two : ∃ k : Locked Tally.twoServices,
    (system Tally.twoServices).run (init Tally.twoServices)
      (Tally.lookups ++ [.enter, .commit, .unlock]) = some k ∧
    k.writer = none ∧ k.lookup true = some ⟨true, 0, 2⟩ ∧ k.LookupContract := by
  have hrun : (system Tally.twoServices).run (init Tally.twoServices)
      (Tally.lookups ++ [.enter, .commit, .unlock]) = some _ := rfl
  exact ⟨_, hrun, rfl, rfl, lookup_contract hrun⟩

end Locked

end Hannibal
