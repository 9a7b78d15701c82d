/-
The operations of the registry are atomic.

An operation on the registry claims the lock, waits for the readers, looks at the map,
spawns and writes, and gives the lock back, and other tasks and all actors go on in
between.  `Registry.atomic` is the registry in which it does so in one step:

* `Registry.Pending` — what the operation in progress has seen still holds;
* **`registry_atomic`** — whatever the tasks do behind the lock, the map, the actors and
  the history are those of a run of the atomic registry, and so are the addresses that
  `try_from_registry` found;
* **`registry_settles`** — an operation that has claimed the lock comes back, whoever goes
  on first.
-/
import Hannibal.Children
import Hannibal.Lookups
import Hannibal.Potential

namespace Hannibal

open Spawned (Later)

inductive AtomicLabel {T : Type} (S : Program T) where
  | spawn (t : T) (E : Environment (S.actor t)) (a : (S.actor t).State) (c : (S.actor t).Ctx)
  | actor (i : ℕ) (t : T) (l : Label (S.actor t))
  | run (op : RegistryOp T)
  | tryFromRegistry (t : T)

/-- The instance that `try_from_registry` found. -/
def RegistryEvent.found? {T : Type} : RegistryEvent T → Option (T × ℕ)
  | .tried t i => i.map (t, ·)
  | _ => none

namespace Registry

variable {T : Type} {S : Program T}

/-- What the registry is without the operation in progress. -/
def unlocked (r : Registry S) : Registry S := { r with lock := none }

theorem unlocked_eq {r : Registry S} (h : r.lock = none) : r.unlocked = r := by
  cases r
  cases h
  rfl

variable [DecidableEq T] {r q : Registry S}

/-- The operation looks at the map and writes it in one step. -/
def atOnce (r : Registry S) (op : RegistryOp T) : Registry S :=
  match (r.enter op).lock with
  | some op => (r.enter op).commit op
  | none => r.enter op

/-- The registry without a lock. -/
def atomic (S : Program T) : Machine (Registry S) (AtomicLabel S) where
  step r
    | .spawn t E a c => Registry.step r (.spawn t E a c)
    | .actor i t l => Registry.step r (.actor i t l)
    | .run op => if r.admits op then some (r.atOnce op) else none
    | .tryFromRegistry t => some (r.tryFromRegistry t)

/-- What the operation in progress has seen still holds. -/
structure Pending (r : Registry S) : Prop where
  admits : ∀ op, r.lock = some op → r.unlocked.admits op = true
  decided : ∀ op, r.lock = some op → op.overrides = false →
    ∀ b, r.map op.key = some b → r.stopped b = true

/-! ### What an operation in progress has seen -/

/-- An address that was found to have stopped stays so as long as it is not awaited. -/
theorem stopped_later {P : ℕ → ℕ → Prop} (h : r.Safe) (hq : q.Safe)
    (hl : Later P r.actors q.actors) {b : Boxed T} (hP : P b.id b.handle)
    (hb : r.stopped b = true) : q.stopped b = true := by
  obtain ⟨x, hd, hx, hh, hs, i, o, hmem⟩ := h.stopped_iff_resolved.mp hb
  obtain ⟨y, hy, hxy⟩ := hl.actor b.id x hx
  obtain ⟨z, hz, hzh⟩ := Spawned.handleAt_eq_some.mp
    (hl.keeps b.id b.handle hd hP (Spawned.handleAt_eq_some.mpr ⟨x, hx, hh⟩))
  obtain rfl := Option.some_inj.mp (hy.symm.trans hz)
  obtain ⟨s, rfl, htr⟩ := hxy.trace (h.alive b.id x hx)
  exact hq.stopped_iff_resolved.mpr ⟨_, hd, hy, hzh, hs, i, o, htr.subset hmem⟩

/-- The actors' steps leave the handles alone that the registry owns. -/
theorem Safe.act_later (h : r.Safe) {i : ℕ} {x : Spawned S} {l : Label (S.actor x.type)}
    {s : Sys (S.actor x.type)} (hx : r.actors[i]? = some x) (hs : x.env.step x.sys l = some s)
    (hu : ∀ j, l.uses = some j → r.reserved ⟨x.type, i, j⟩ = false) :
    Later r.Owned r.actors (r.act i x s).actors := by
  refine .set hx (.of_step hs) fun j hd hj hh => ?_
  have huse : l.uses ≠ some j := by
    intro huse
    obtain ⟨t, ht⟩ := hj
    obtain ⟨y, -, hy, hty, -⟩ := holds_iff.mp (h.holds_of_reserved ht)
    obtain rfl := Option.some_inj.mp (hx.symm.trans hy)
    have hfalse := hu j huse
    rw [hty, ht] at hfalse
    cases hfalse
  exact Environment.step_handle hs hh (fun hl => huse (hl ▸ rfl)) fun hl => huse (hl ▸ rfl)

/-- Nothing borrows the address. -/
def Unborrowed (r : Registry S) (b : Boxed T) : Prop :=
  ∃ x : Spawned S, r.actors[b.id]? = some x ∧ x.sys.borrowed b.handle = false

theorem admits_iff {op : RegistryOp T} : r.admits op = true ↔
    ∀ b, op.self? = some b → r.holds b = true ∧ r.reserved b = false ∧ r.Unborrowed b := by
  unfold admits Unborrowed
  cases hs : op.self? with
  | none => simp
  | some b =>
    cases hx : r.actors[b.id]? with
    | none => simp [hx]
    | some x => simp [hx, and_assoc]

/-- A step of the surroundings leaves what the operation in progress has seen. -/
theorem Pending.later (h : r.Pending) (hr : r.Safe) (hq : q.Safe)
    (hl : Later r.Owned r.actors q.actors) (hm : q.map = r.map) (hk : q.lock = r.lock)
    (hb : ∀ b, r.reserved b = true → r.Unborrowed b → q.Unborrowed b) : q.Pending := by
  constructor
  · intro op ho
    rw [admits_iff]
    intro b hself
    have ho' : r.lock = some op := hk ▸ ho
    obtain ⟨hheld, -, hunb⟩ := admits_iff.mp (h.admits op ho') b hself
    have hres : r.reserved b = true := by simp [reserved, ho', hself]
    refine ⟨holds_later hl ⟨b.type, hres⟩ hheld, ?_, hb b hres hunb⟩
    have hnot := (hq.moved b (by rw [ho]; exact hself)).2
    simp [reserved, unlocked, hnot]
  · intro op ho hov b hmb
    rw [hm] at hmb
    obtain ⟨hbt, -⟩ := hr.typed _ b hmb
    refine stopped_later hr hq hl ⟨b.type, ?_⟩ (h.decided op (hk ▸ ho) hov b hmb)
    rw [← hbt] at hmb
    simp [reserved, hmb]

/-- Where it is not refused an operation writes what it decided to. -/
theorem enter_eq (ht : ∀ t b, r.map t = some b → b.type = t) {op : RegistryOp T}
    (hd : op.overrides = false → ∀ b, r.map op.key = some b → r.stopped b = true) :
    r.enter op = { r with lock := some op } := by
  cases op with
  | register self =>
    have hi : r.inspect (.register self) = .insert := by
      cases hm : r.map self.type with
      | none => simp [inspect, hm]
      | some b =>
        have hcast : downcast self.type b = some b := downcast_eq_some.mpr ⟨ht _ b hm, rfl⟩
        simp [inspect, hm, hcast, hd rfl b hm]
    rw [enter, hi]
  | replace self => rfl
  | unregister t => rfl
  | fromRegistry t =>
    have hf : ((r.map t).bind (downcast t)).filter r.running = none := by
      rw [Option.eq_none_iff_forall_not_mem]
      intro b hb
      obtain ⟨hm, -, hr⟩ := lookup_eq_some.mp hb
      rw [stopped_iff.mp (hd rfl b hm)] at hr
      cases hr
    have hi : r.inspect (.fromRegistry t) = .spawn := by simp [inspect, hf]
    rw [enter, hi]

theorem commit_lock (r : Registry S) (op : RegistryOp T) : (r.commit op).lock = none := by
  cases op <;> rfl

/-- An operation that enters and writes nothing has done so in one step; one that keeps the
lock does not touch the registry yet. -/
theorem enter_atomic (h : r.Safe) {op : RegistryOp T}
    (hst : Registry.step r (.enter op) = some q) : q.Pending ∧
      (q.unlocked = r.unlocked ∨ (atomic S).step r.unlocked (.run op) = some q.unlocked) := by
  simp only [Registry.step] at hst
  split at hst
  · next hg =>
    simp only [Bool.and_eq_true, decide_eq_true_eq] at hg
    obtain rfl := Option.some_inj.mp hst
    rw [unlocked_eq hg.1]
    cases hl : (r.enter op).lock with
    | none =>
      -- it found what it was looking for, or was refused
      refine ⟨⟨fun op' ho => ?_, fun op' ho => ?_⟩, .inr ?_⟩
      · rw [hl] at ho
        cases ho
      · rw [hl] at ho
        cases ho
      · simp [atomic, hg.2, atOnce, hl, unlocked_eq hl]
    | some op' =>
      -- it keeps the lock, and what it has seen is what it was let in with
      obtain ⟨es, hs⟩ := step_cases (r := r) (l := .enter op) (q := r.enter op)
        (by simp [Registry.step, hg])
      generalize r.enter op = q at hl hs
      cases hs with
      | locks _ hn ha hd =>
        refine ⟨⟨fun op' ho => ?_, fun op' ho hov b hb => ?_⟩, .inl (unlocked_eq hg.1)⟩
        · obtain rfl := Option.some_inj.mp ho
          exact (unlocked_eq hg.1).symm ▸ ha
        · obtain rfl := Option.some_inj.mp ho
          exact hd hov b hb (h.typed _ b hb).1
      | hands t b hn hm ht hr =>
        have hl : r.lock = some op' := hl
        rw [hg.1] at hl
        cases hl
      | refuses self hn ha hd =>
        have hl : r.lock = some op' := hl
        rw [hg.1] at hl
        cases hl
  · cases hst

/-- An operation that commits could look at the map just then. -/
theorem commit_atomic (h : r.Safe) (hp : r.Pending) {op : RegistryOp T} (hl : r.lock = some op) :
    (atomic S).step r.unlocked (.run op) = some (r.commit op) := by
  have henter : r.unlocked.enter op = r := by
    rw [enter_eq (r := r.unlocked) (fun t b hb => (h.typed t b hb).1) (hp.decided op hl)]
    cases r
    cases hl
    rfl
  simp [atomic, hp.admits op hl, atOnce, henter, hl]

theorem spawn_atomic (h : r.Safe) (hp : r.Pending) {t : T} {E : Environment (S.actor t)}
    {a : (S.actor t).State} {c : (S.actor t).Ctx}
    (hst : Registry.step r (.spawn t E a c) = some q) :
    q.Pending ∧ (atomic S).step r.unlocked (.spawn t E a c) = some q.unlocked := by
  have hq := safe_step h hst
  cases hst
  refine ⟨hp.later h hq (.spawn ⟨a, c, .refl _ _⟩) rfl rfl ?_, rfl⟩
  rintro b - ⟨x, hx, hb⟩
  exact ⟨x, by rw [List.getElem?_append_left (List.getElem?_eq_some_iff.mp hx).1, hx], hb⟩

/-- What an actor may do beside an operation in progress it may do without one. -/
theorem actor_atomic (h : r.Safe) (hp : r.Pending) {i : ℕ} {t : T} {l : Label (S.actor t)}
    (hst : Registry.step r (.actor i t l) = some q) :
    q.Pending ∧ (atomic S).step r.unlocked (.actor i t l) = some q.unlocked := by
  have hq := safe_step h hst
  obtain ⟨es, hs⟩ := step_cases hst
  cases hs with
  | act i x l s hx hs hu =>
    constructor
    · refine hp.later h hq (h.act_later hx hs hu) rfl rfl ?_
      rintro b hres ⟨y, hy, hb⟩
      by_cases hi : b.id = i
      · subst hi
        obtain rfl := Option.some_inj.mp (hx.symm.trans hy)
        have huse : l.uses ≠ some b.handle := by
          intro huse
          obtain ⟨z, -, hz, htype, -⟩ := holds_iff.mp (h.holds_of_reserved hres)
          obtain rfl := Option.some_inj.mp (hx.symm.trans hz)
          have hfalse := hu _ huse
          rw [htype, hres] at hfalse
          cases hfalse
        exact ⟨{ x with sys := s },
          List.getElem?_set_self (List.getElem?_eq_some_iff.mp hx).1,
          Environment.step_borrowed hs hb huse⟩
      · exact ⟨y, by rw [← hy]; exact List.getElem?_set_ne (Ne.symm hi), hb⟩
    · have hany : (l.uses.any fun j => r.unlocked.reserved ⟨x.type, i, j⟩) = false := by
        cases hl : l.uses with
        | none => rfl
        | some j =>
          have hno := hu j hl
          simp only [reserved, Bool.or_eq_false_iff] at hno
          simp only [Option.any_some, reserved]
          exact Bool.or_eq_false_iff.mpr ⟨hno.1, rfl⟩
      show Registry.step r.unlocked (.actor i x.type l) = _
      have hx' : r.unlocked.actors[i]? = some x := hx
      simp only [Registry.step, hx', hany, dif_pos, hs]
      rfl

/-- Only `try_from_registry` tells what it found. -/
theorem RegistryStep.found {l : RegistryLabel S} {es : List (RegistryEvent T)}
    (hs : RegistryStep r l es q) (hl : ∀ t, l ≠ .tryFromRegistry t) :
    q.trace.filterMap RegistryEvent.found? = r.trace.filterMap RegistryEvent.found? := by
  have hnil : es.filterMap RegistryEvent.found? = [] := by
    cases hs with
    | act i x l s hx hs hu => split <;> rfl
    | tries t | misses t => exact absurd rfl (hl t)
    | _ => rfl
  rw [hs.trace, List.filterMap_append, hnil, List.append_nil]

/-- What it found lies in the map. -/
theorem tryFromRegistry_found (h : r.lock = none) (t : T) :
    (r.tryFromRegistry t).lock = none ∧ (r.tryFromRegistry t).trace = r.trace ++
      [.tried t ((((r.map t).bind (downcast t)).filter r.running).map Boxed.id)] := by
  unfold tryFromRegistry
  rw [h]
  cases ((r.map t).bind (downcast t)).filter r.running <;> exact ⟨h, rfl⟩

end Registry

/-! ### Behind the lock -/

namespace Locked

variable {T : Type} [DecidableEq T] {S : Program T} {k m : Locked S}

/-- What each label does to the registry and to its lock, and where it can be taken. -/
inductive Takes (k : Locked S) : LockedLabel S → Locked S → Prop where
  | spawn (t : T) (E : Environment (S.actor t)) (a : (S.actor t).State) (c : (S.actor t).Ctx)
      (r : Registry S) (hr : Registry.step k.registry (.spawn t E a c) = some r) :
      Takes k (.spawn t E a c) { k with registry := r }
  | actor (i : ℕ) (t : T) (l : Label (S.actor t)) (r : Registry S)
      (hu : ∀ j, l.uses = some j → k.writer.bind Writer.self? ≠ some ⟨t, i, j⟩)
      (hr : Registry.step k.registry (.actor i t l) = some r) :
      Takes k (.actor i t l) { k with registry := r }
  | write (op : RegistryOp T) (hw : k.writer = none) (ha : k.registry.admits op = true) :
      Takes k (.write op) { k with writer := some (.waiting op) }
  | enter (op : RegistryOp T) (r : Registry S) (hw : k.writer = some (.waiting op))
      (hr : Registry.step k.registry (.enter op) = some r) :
      Takes k .enter { k with registry := r, writer := some .inside }
  | commit (op : RegistryOp T) (hl : k.registry.lock = some op) :
      Takes k .commit { k with registry := k.registry.commit op }
  | unlock (hw : k.writer = some .inside) (hl : k.registry.lock = none) :
      Takes k .unlock { k with writer := none }
  | read (t : T) (hw : k.writer = none) : Takes k (.read t) { k with readers := k.readers ++ [t] }
  | unread (i : ℕ) (hi : i < k.readers.length) :
      Takes k (.unread i) { k with readers := k.readers.eraseIdx i }
  | tryFromRegistry (t : T) :
      Takes k (.tryFromRegistry t) { k with
        registry := if k.writer = none then k.registry.tryFromRegistry t else k.registry
        tries := k.tries ++ [(t, (k.lookup t).map Boxed.id)] }

theorem takes {l : LockedLabel S} (h : (Locked.system S).step k l = some m) : k.Takes l m := by
  cases l with
  | spawn t E a c =>
    simp only [Locked.system, Locked.step] at h
    obtain ⟨r, hr, rfl⟩ := Option.map_eq_some_iff.mp h
    exact .spawn t E a c r hr
  | actor i t l =>
    simp only [Locked.system, Locked.step] at h
    split at h
    · cases h
    · next hself =>
      obtain ⟨r, hr, rfl⟩ := Option.map_eq_some_iff.mp h
      refine .actor i t l r (fun j hj hw => hself ?_) hr
      simp [hj, hw]
  | write op =>
    simp only [Locked.system, Locked.step] at h
    split at h
    · next hg =>
      simp only [Bool.and_eq_true, decide_eq_true_eq] at hg
      cases h
      exact .write op hg.1 hg.2
    · cases h
  | enter =>
    simp only [Locked.system, Locked.step] at h
    split at h
    · next op hw =>
      split at h
      · obtain ⟨r, hr, rfl⟩ := Option.map_eq_some_iff.mp h
        exact .enter op r hw hr
      · cases h
    · cases h
  | commit =>
    simp only [Locked.system, Locked.step] at h
    obtain ⟨r, hr, rfl⟩ := Option.map_eq_some_iff.mp h
    obtain ⟨op, hl, rfl⟩ := Option.map_eq_some_iff.mp hr
    exact .commit op hl
  | unlock =>
    simp only [Locked.system, Locked.step] at h
    split at h
    · next hg =>
      simp only [Bool.and_eq_true, decide_eq_true_eq] at hg
      cases h
      exact .unlock hg.1 hg.2
    · cases h
  | read t =>
    simp only [Locked.system, Locked.step] at h
    split at h
    · next hw =>
      cases h
      exact .read t hw
    · cases h
  | unread i =>
    simp only [Locked.system, Locked.step] at h
    split at h
    · next hi =>
      cases h
      exact .unread i hi
    · cases h
  | tryFromRegistry t =>
    simp only [Locked.system, Locked.step, Option.some_inj] at h
    subst h
    exact .tryFromRegistry t

/-- The instances that `try_from_registry` found. -/
def found (k : Locked S) : List (T × ℕ) := k.tries.filterMap fun p => p.2.map (p.1, ·)

/-- The registry behind the lock is one whose operations are atomic. -/
structure Atomic (k : Locked S) : Prop where
  guards : k.Guards
  pending : k.registry.Pending
  runs : (Registry.atomic S).Reaches (.init S) k.registry.unlocked
  found : k.found = k.registry.trace.filterMap RegistryEvent.found?

namespace Atomic

theorem init (S : Program T) : (Locked.init S).Atomic where
  guards := ⟨Registry.Safe.init S, fun op ho => by cases ho⟩
  pending := ⟨fun op ho => (by cases ho), fun op ho => (by cases ho)⟩
  runs := .refl _ _
  found := rfl

/-- A step that leaves the registry as it is. -/
theorem same (h : k.Atomic) (hm : m.Guards) (hr : m.registry = k.registry)
    (hf : m.found = k.found) : m.Atomic where
  guards := hm
  pending := hr ▸ h.pending
  runs := hr ▸ h.runs
  found := by rw [hf, hr, h.found]

/-- A step of the registry that `try_from_registry` has no part in. -/
theorem next (h : k.Atomic) (hm : m.Guards) {l : RegistryLabel S}
    (hst : Registry.step k.registry l = some m.registry) (hl : ∀ t, l ≠ .tryFromRegistry t)
    (hp : m.registry.Pending)
    (hr : m.registry.unlocked = k.registry.unlocked ∨ ∃ l', (Registry.atomic S).step
      k.registry.unlocked l' = some m.registry.unlocked)
    (hf : m.found = k.found) : m.Atomic where
  guards := hm
  pending := hp
  runs := by
    rcases hr with hr | ⟨l', hr⟩
    · exact hr ▸ h.runs
    · exact h.runs.trans (.single hr)
  found := by
    obtain ⟨es, hs⟩ := Registry.step_cases hst
    rw [hf, h.found, hs.found hl]

/-- A task asks `try_from_registry`. -/
theorem tries (h : k.Atomic) (t : T) (hm : Guards { k with
      registry := if k.writer = none then k.registry.tryFromRegistry t else k.registry
      tries := k.tries ++ [(t, (k.lookup t).map Boxed.id)] }) :
    Atomic { k with
      registry := if k.writer = none then k.registry.tryFromRegistry t else k.registry
      tries := k.tries ++ [(t, (k.lookup t).map Boxed.id)] } := by
  by_cases hw : k.writer = none
  · -- nobody has claimed the lock, so nothing is in progress
    have hl : k.registry.lock = none := by
      cases hl : k.registry.lock with
      | none => rfl
      | some op =>
        have hin := h.guards.inside op hl
        rw [hw] at hin
        cases hin
    obtain ⟨hno, htr⟩ := Registry.tryFromRegistry_found hl t
    have hlook : k.lookup t =
        ((k.registry.map t).bind (Registry.downcast t)).filter k.registry.running := by
      rw [lookup, hw]
    simp only [if_pos hw] at hm ⊢
    refine ⟨hm, ?_, ?_, ?_⟩
    · constructor <;> intro op' ho <;> rw [hno] at ho <;> cases ho
    · refine h.runs.trans (.single (l := .tryFromRegistry t) ?_)
      show some (k.registry.unlocked.tryFromRegistry t) = _
      rw [Registry.unlocked_eq hl, Registry.unlocked_eq hno]
    · rw [htr, List.filterMap_append, ← h.found, Locked.found, List.filterMap_append, hlook]
      rfl
  · -- the lookup gives up at once
    refine h.same hm (by simp [hw]) ?_
    obtain ⟨v, hv⟩ := Option.ne_none_iff_exists'.mp hw
    rw [Locked.found, List.filterMap_append, lookup, hv]
    exact List.append_nil _

theorem step (h : k.Atomic) {l : LockedLabel S} (hst : (Locked.system S).step k l = some m) :
    m.Atomic := by
  have hm := h.guards.step hst
  have hsafe := h.guards.safe
  cases takes hst with
  | spawn t E a c r hr =>
    obtain ⟨hp, hat⟩ := Registry.spawn_atomic hsafe h.pending hr
    exact h.next hm hr (by simp) hp (.inr ⟨_, hat⟩) rfl
  | actor i t l r hu hr =>
    obtain ⟨hp, hat⟩ := Registry.actor_atomic hsafe h.pending hr
    exact h.next hm hr (by simp) hp (.inr ⟨_, hat⟩) rfl
  | enter op r hw hr =>
    obtain ⟨hp, hat⟩ := Registry.enter_atomic hsafe hr
    exact h.next hm hr (by simp) hp (hat.imp id fun hat => ⟨_, hat⟩) rfl
  | commit op hl =>
    -- this is where the atomic registry runs the whole operation
    have hno := k.registry.commit_lock op
    have hr : Registry.step k.registry .commit = some (k.registry.commit op) := by
      simp [Registry.step, hl]
    have hp : (k.registry.commit op).Pending := by
      constructor <;> intro op' ho <;> rw [hno] at ho <;> cases ho
    refine h.next hm hr (by simp) hp (.inr ⟨.run op, ?_⟩) rfl
    rw [Registry.commit_atomic hsafe h.pending hl, Registry.unlocked_eq hno]
  | write | unlock | read | unread => exact h.same hm rfl rfl
  | tryFromRegistry t => exact h.tries t hm

end Atomic

end Locked

/-- **The operations of the registry are atomic.**  Whatever the tasks do behind the lock
and the actors meanwhile, the registry is as if each operation had looked at the map and
written it in one step, in the order of the history, and what `try_from_registry` found
was found in a step of its own in between. -/
theorem registry_atomic {T : Type} [DecidableEq T] {S : Program T} {k : Locked S}
    (h : (Locked.system S).Reaches (.init S) k) :
    ∃ r, (Registry.atomic S).Reaches (.init S) r ∧ r.map = k.registry.map ∧
      r.actors = k.registry.actors ∧ r.trace = k.registry.trace ∧
      k.found = r.trace.filterMap RegistryEvent.found? := by
  have hk := Machine.invariant (M := Locked.system S) (P := Locked.Atomic)
    (fun _ _ _ hk hst => hk.step hst) (Locked.Atomic.init S) h
  exact ⟨k.registry.unlocked, hk.runs, rfl, rfl, rfl, hk.found⟩

namespace Tally

/-- A lookup of one service spawns it while another task looks for it in vain; later it is
found. -/
def looksTwice : List (LockedLabel twoServices) :=
  [.write (.fromRegistry true), .enter, .tryFromRegistry true, .commit, .unlock,
    .tryFromRegistry true]

end Tally

theorem registry_atomic_of_lookups : ∃ k : Locked Tally.twoServices,
    (Locked.system Tally.twoServices).run (.init Tally.twoServices) Tally.looksTwice = some k ∧
    k.tries = [(true, none), (true, some 0)] ∧
    ∃ r, (Registry.atomic Tally.twoServices).Reaches (.init Tally.twoServices) r ∧
      r.map = k.registry.map ∧ r.actors = k.registry.actors ∧ r.trace = k.registry.trace ∧
      k.found = r.trace.filterMap RegistryEvent.found? :=
  ⟨_, rfl, rfl, registry_atomic ⟨Tally.looksTwice, rfl⟩⟩

/-! ### Coming back -/

/-- The event tells how the operation came back. -/
def RegistryEvent.Answers {T : Type} (ev : RegistryEvent T) : RegistryOp T → Prop
  | .register self => ev = .refused self ∨
      ∃ new old, ev = .registered new old ∧ new.type = self.type ∧ new.id = self.id
  | .replace self => ∃ new old, ev = .replaced new old ∧ new.type = self.type ∧ new.id = self.id
  | .unregister t => ∃ old, ev = .unregistered t old
  | .fromRegistry t => ∃ i, ev = .handed t i

/-- The step goes on with the operation that has claimed the lock, or lets a reader leave. -/
def LockedLabel.works {T : Type} {S : Program T} : LockedLabel S → Bool
  | .enter => true
  | .commit => true
  | .unlock => true
  | .unread _ => true
  | _ => false

namespace Registry

variable {T : Type} [DecidableEq T] {S : Program T} {r q : Registry S}

theorem commit_answers (r : Registry S) (op : RegistryOp T) :
    ∃ es, (r.commit op).trace = r.trace ++ es ∧ ∃ ev ∈ es, ev.Answers op := by
  cases op with
  | register self => exact ⟨_, rfl, _, List.mem_singleton_self _, .inr ⟨_, _, rfl, rfl, rfl⟩⟩
  | replace self => exact ⟨_, rfl, _, List.mem_singleton_self _, _, _, rfl, rfl, rfl⟩
  | unregister t => exact ⟨_, rfl, _, List.mem_singleton_self _, _, rfl⟩
  | fromRegistry t =>
    refine ⟨[.spawned ((r.spawnService t).cloned ⟨t, r.actors.length, 1⟩),
      .handed t r.actors.length], ?_, _, List.mem_cons_of_mem _ List.mem_cons_self, _, rfl⟩
    show (((r.spawnService t).insert _).discard (r.map t)).trace ++ _ = _
    rw [(discard_same _ _).2]
    rfl

/-- An operation that enters keeps the lock, or comes back at once. -/
theorem enter_answers {op : RegistryOp T} (hst : Registry.step r (.enter op) = some q) :
    q = { r with lock := some op } ∨ q.lock = none ∧
      ∃ es, q.trace = r.trace ++ es ∧ ∃ ev ∈ es, ev.Answers op := by
  obtain ⟨es, hs⟩ := step_cases hst
  have ht := hs.trace
  cases hs with
  | locks _ hl ha hd => exact .inl rfl
  | hands t b hl hm hbt hr =>
    exact .inr ⟨hl, _, ht, _, List.mem_singleton_self _, _, rfl⟩
  | refuses self hl ha hd => exact .inr ⟨hl, _, ht, _, List.mem_singleton_self _, .inl rfl⟩

/-- An `Addr` that the step does not use may still be moved into its operation. -/
theorem admits_act {i : ℕ} {x : Spawned S} {l : Label (S.actor x.type)}
    {s : Sys (S.actor x.type)} (hx : r.actors[i]? = some x) (hs : x.env.step x.sys l = some s)
    {op : RegistryOp T} (hl : ∀ j, l.uses = some j → op.self? ≠ some ⟨x.type, i, j⟩)
    (ha : r.admits op = true) : (r.act i x s).admits op = true := by
  rw [admits_iff] at ha ⊢
  intro b hb
  obtain ⟨hheld, hres, y, hy, hunb⟩ := ha b hb
  have huse : b.id = i → l.uses ≠ some b.handle := by
    rintro rfl huse
    obtain ⟨z, -, hz, htype, -⟩ := holds_iff.mp hheld
    obtain rfl := Option.some_inj.mp (hx.symm.trans hz)
    refine hl _ huse ?_
    rw [htype]
    exact hb
  have hlater : Later (fun i' j => i' = i → l.uses ≠ some j) r.actors (r.act i x s).actors := by
    refine .set hx (.of_step hs) fun j hd hj hh => ?_
    exact Environment.step_handle hs hh (fun he => hj rfl (he ▸ rfl)) fun he => hj rfl (he ▸ rfl)
  refine ⟨holds_later hlater huse hheld, hres, ?_⟩
  by_cases hi : b.id = i
  · subst hi
    obtain rfl := Option.some_inj.mp (hx.symm.trans hy)
    exact ⟨{ x with sys := s }, List.getElem?_set_self (List.getElem?_eq_some_iff.mp hx).1,
      Environment.step_borrowed hs hunb (huse rfl)⟩
  · exact ⟨y, by rw [← hy]; exact List.getElem?_set_ne (Ne.symm hi), hunb⟩

theorem admits_spawn {x : Spawned S} (hx : x.Alive) {op : RegistryOp T}
    (ha : r.admits op = true) :
    ({ r with actors := r.actors ++ [x] } : Registry S).admits op = true := by
  rw [admits_iff] at ha ⊢
  intro b hb
  obtain ⟨hheld, hres, y, hy, hunb⟩ := ha b hb
  refine ⟨holds_later (P := fun _ _ => True) (.spawn hx) trivial hheld, hres, y, ?_, hunb⟩
  rw [List.getElem?_append_left (List.getElem?_eq_some_iff.mp hy).1, hy]

end Registry

namespace Locked

variable {T : Type} [DecidableEq T] {S : Program T} {k m : Locked S} {op : RegistryOp T}

/-- The operation that waits at the lock still has its `Addr`. -/
def Waits (k : Locked S) : Prop :=
  ∀ op, k.writer = some (.waiting op) → k.registry.admits op = true

theorem Waits.step (h : k.Waits) (hg : k.Guards) {l : LockedLabel S}
    (hst : (Locked.system S).step k l = some m) : m.Waits := by
  cases takes hst with
  | spawn t E a c r hr =>
    cases hr
    exact fun op hw =>
      Registry.admits_spawn (x := ⟨t, E, E.init a c⟩) ⟨a, c, .refl _ _⟩ (h op hw)
  | actor i t l r hu hr =>
    obtain ⟨es, hs⟩ := Registry.step_cases hr
    cases hs with
    | act i x l s hx hs hu' =>
      refine fun op hw => Registry.admits_act hx hs (fun j hj hop => hu j hj ?_) (h op hw)
      have hw : k.writer = some (.waiting op) := hw
      rw [hw]
      exact hop
  | write op hw ha =>
    rintro op' ⟨⟩
    exact ha
  | enter | unlock => rintro op' ⟨⟩
  | commit op hl =>
    -- who commits is inside, so nobody waits
    intro op' hw
    have hw : k.writer = some (.waiting op') := hw
    rw [hg.inside op hl] at hw
    cases hw
  | read | unread => exact h
  | tryFromRegistry t =>
    intro op hw
    have hw : k.writer = some (.waiting op) := hw
    simpa [hw] using h op hw

/-- What is still to be done at the lock. -/
def cost (k : Locked S) : ℕ :=
  k.readers.length + match k.writer with
    | none => 0
    | some (.waiting _) => 3
    | some .inside => if k.registry.lock = none then 1 else 2

theorem works_cost (hg : k.Guards) {l : LockedLabel S} (hl : l.works = true)
    (hst : (Locked.system S).step k l = some m) : m.cost < k.cost := by
  cases takes hst with
  | enter op r hw hr =>
    simp only [cost, hw]
    split <;> omega
  | commit op hlock =>
    simp only [cost, hg.inside op hlock, Registry.commit_lock, hlock, if_true, reduceCtorEq,
      if_false]
    omega
  | unlock hw hlock =>
    simp only [cost, hw, hlock, if_true]
    omega
  | unread i hi =>
    simp only [cost, List.length_eraseIdx_of_lt hi]
    omega
  | spawn | actor | write | read | tryFromRegistry => cases hl

/-- Where nobody can go on the lock is free. -/
theorem quiet_free (hg : k.Guards) (hw : k.Waits)
    (hq : (Locked.system S).Quiet (fun _ l => l.works) k) : k.writer = none ∧ k.readers = [] := by
  have hreaders : k.readers = [] := by
    have hnone : (Locked.system S).step k (.unread 0) = none := hq _ rfl
    by_contra hne
    have hpos : 0 < k.readers.length := List.length_pos_iff.mpr hne
    simp [Locked.system, Locked.step, hpos] at hnone
  refine ⟨?_, hreaders⟩
  cases hwr : k.writer with
  | none => rfl
  | some w =>
    cases w with
    | waiting op =>
      -- no reader is left, and the operation still has its `Addr`
      have hnone : (Locked.system S).step k .enter = none := hq _ rfl
      have hl : k.registry.lock = none := by
        cases hl : k.registry.lock with
        | none => rfl
        | some op' =>
          have hin := hg.inside op' hl
          rw [hwr] at hin
          cases hin
      simp [Locked.system, Locked.step, hwr, hreaders, Registry.step, hl, hw op hwr] at hnone
    | inside =>
      cases hl : k.registry.lock with
      | none =>
        have hnone : (Locked.system S).step k .unlock = none := hq _ rfl
        simp [Locked.system, Locked.step, hwr, hl] at hnone
      | some op =>
        have hnone : (Locked.system S).step k .commit = none := hq _ rfl
        simp [Locked.system, Locked.step, Registry.step, hl] at hnone

theorem sound (h : (Locked.system S).Reaches (.init S) k) : k.Guards ∧ k.Waits := by
  refine Machine.invariant (P := fun k => k.Guards ∧ k.Waits)
    (fun _ _ _ hk hst => ⟨hk.1.step hst, hk.2.step hk.1 hst⟩) ⟨?_, ?_⟩ h
  · exact (Locked.Atomic.init S).guards
  · rintro op ⟨⟩

/-- The operation waits, is inside, or has come back since `k`. -/
def Coming (k : Locked S) (op : RegistryOp T) (m : Locked S) : Prop :=
  m.registry.trace = k.registry.trace ∧
      (m.writer = some (.waiting op) ∨ m.registry.lock = some op) ∨
    ∃ es, m.registry.trace = k.registry.trace ++ es ∧ ∃ ev ∈ es, ev.Answers op

theorem Coming.step {n : Locked S} (hg : m.Guards) (h : k.Coming op m) {l : LockedLabel S}
    (hl : l.works = true) (hst : (Locked.system S).step m l = some n) : k.Coming op n := by
  rcases h with ⟨htr, hat⟩ | ⟨es, htr, hes⟩
  · cases takes hst with
    | enter op' r hw hr =>
      rcases hat with hat | hat
      · obtain rfl : op' = op := by simpa [hw] using hat
        rcases Registry.enter_answers hr with rfl | ⟨-, es, hes, hev⟩
        · exact .inl ⟨htr, .inr rfl⟩
        · exact .inr ⟨es, htr ▸ hes, hev⟩
      · have hin := hg.inside op hat
        rw [hw] at hin
        cases hin
    | commit op' hlock =>
      rcases hat with hat | hat
      · rw [hg.inside op' hlock] at hat
        cases hat
      · obtain rfl := Option.some_inj.mp (hlock.symm.trans hat)
        obtain ⟨es, hes, hev⟩ := m.registry.commit_answers op'
        exact .inr ⟨es, htr ▸ hes, hev⟩
    | unlock hw hlock =>
      -- the lock is not given back in front of the answer
      rcases hat with hat | hat
      · rw [hw] at hat
        cases hat
      · rw [hlock] at hat
        cases hat
    | unread i hi => exact .inl ⟨htr, hat⟩
    | spawn | actor | write | read | tryFromRegistry => cases hl
  · -- what was recorded stays so
    obtain ⟨ev, hmem, hev⟩ := hes
    rcases registry_step hst with hr | ⟨l', hr⟩
    · exact .inr ⟨es, by rw [hr, htr], ev, hmem, hev⟩
    · obtain ⟨es', hs⟩ := Registry.step_cases hr
      exact .inr ⟨es ++ es', by rw [hs.trace, htr, List.append_assoc], ev,
        List.mem_append_left _ hmem, hev⟩

end Locked

/-- **Every operation on the registry comes back.**  A task that has claimed the lock gets
its answer under every schedule of those who use it, and then the lock is free. -/
theorem registry_settles {T : Type} [DecidableEq T] {S : Program T} {k : Locked S}
    (h : (Locked.system S).Reaches (.init S) k) {op : RegistryOp T}
    (hw : k.writer = some (.waiting op)) :
    (Locked.system S).Inevitably (fun _ l => l.works)
      (fun m => m.writer = none ∧ m.readers = [] ∧
        ∃ es, m.registry.trace = k.registry.trace ++ es ∧ ∃ ev ∈ es, ev.Answers op) k := by
  have hsound := Locked.sound h
  refine (Machine.inevitably_quiet
    (I := fun m : Locked S => m.Guards ∧ m.Waits ∧ k.Coming op m) Nat.lt_wfRel.wf Locked.cost
    ?_ ?_ ⟨hsound.1, hsound.2, .inl ⟨rfl, .inl hw⟩⟩).mono ?_
  · rintro m l n ⟨hg, hm, hc⟩ hl hst
    exact ⟨hg.step hst, hm.step hg hst, hc.step hg hl hst⟩
  · exact fun m l n hm hl hst => Locked.works_cost hm.1 hl hst
  · rintro m ⟨⟨hg, hm, hc⟩, hq⟩
    obtain ⟨hfree, hnil⟩ := Locked.quiet_free hg hm hq
    refine ⟨hfree, hnil, ?_⟩
    rcases hc with ⟨-, hat | hat⟩ | hdone
    · rw [hfree] at hat
      cases hat
    · have hin := hg.inside op hat
      rw [hfree] at hin
      cases hin
    · exact hdone

/-- A lookup waits for a task that reads the registry. -/
theorem registry_settles_of_lookup : ∃ k : Locked Tally.twoServices,
    (Locked.system Tally.twoServices).run (.init Tally.twoServices)
      [.read false, .write (.fromRegistry true)] = some k ∧
    (Locked.system Tally.twoServices).Inevitably (fun _ l => l.works)
      (fun m => m.writer = none ∧ m.readers = [] ∧
        ∃ es, m.registry.trace = k.registry.trace ++ es ∧
          ∃ ev ∈ es, ev.Answers (.fromRegistry true)) k :=
  ⟨_, rfl, registry_settles ⟨[.read false, .write (.fromRegistry true)], rfl⟩ rfl⟩

end Hannibal
