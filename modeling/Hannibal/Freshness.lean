/-
What the registry promises to its callers.

`running` and `stopped` ask whether some clone of the address was awaited to
completion, not whether the loop has ended.  So a service that ended is found
out when it is looked up (`Settled`) only if one of its clones was awaited, and
only through a stored address that was not awaited itself:

* **`registry_fresh_iff`** — every lookup along a run answers with a service
  that has not ended, exactly if every lookup finds a settled entry;
* **`registry_safe`** — what holds of the map and of the operations in every
  run, and which lookups agree if `from_registry` finds settled entries.

`not_registry_fresh` and `not_registry_safe` are runs of one service that nobody
awaits in time.
-/
import Hannibal.Services

open scoped List

namespace Hannibal

/-- The service that the step looks up. -/
def RegistryLabel.looksUp {T : Type} {S : Program T} : RegistryLabel S → Option T
  | .enter (.register self) => some self.type
  | .enter (.fromRegistry t) => some t
  | .tryFromRegistry t => some t
  | _ => none

/-- The event does not tell of an end of the instance `i` of `t`, of a `replace`
or of an `unregister` of `t`. -/
def RegistryEvent.Spares {T : Type} (t : T) (i : ℕ) : RegistryEvent T → Prop
  | .ended j => j ≠ i
  | .replaced new _ => new.type ≠ t
  | .unregistered t' _ => t' ≠ t
  | _ => True

namespace Registry

variable {T : Type} {S : Program T} {r q : Registry S}

/-- If the registered service has ended then some clone of its address was
awaited to completion, and the stored one was not itself awaited before. -/
def Settled (r : Registry S) (t : T) : Prop :=
  ∀ b, r.map t = some b → r.hasEnded b.id = true →
    ∃ (x : Spawned S) (hd : Handle), r.actors[b.id]? = some x ∧
      x.sys.handle? b.handle = some hd ∧ hd.spent = false ∧ ∃ i o, .resolved i o ∈ x.sys.trace

/-- A lookup that has the lock finds a settled entry. -/
def Sound (r : Registry S) (l : RegistryLabel S) (_ : Registry S) : Prop :=
  r.lock = none → ∀ t, l.looksUp = some t → r.Settled t

/-- What the step hands out has not ended when it looks, and neither has the
service for which it refuses. -/
def Fresh (r : Registry S) (_ : RegistryLabel S) (q : Registry S) : Prop :=
  ∀ es, q.trace = r.trace ++ es →
    (∀ t i, .handed t i ∈ es → r.hasEnded i = false ∧ q.hasEnded i = false) ∧
    (∀ t i, .tried t (some i) ∈ es → r.hasEnded i = false ∧ q.hasEnded i = false) ∧
    ∀ self, .refused self ∈ es → ∃ b, r.map self.type = some b ∧ r.hasEnded b.id = false

/-! ### What is new at a step -/

theorem hasEnded_getD (r : Registry S) (j : ℕ) :
    r.hasEnded j = ((r.actors[j]?).map (·.sys.hasEnded)).getD false := by
  unfold hasEnded
  cases r.actors[j]? <;> rfl

theorem onHandle_hasEnded (r : Registry S) (i : ℕ) (l : HandleLabel) (j : ℕ) :
    (r.onHandle i l).hasEnded j = r.hasEnded j := by
  rw [hasEnded_getD, hasEnded_getD, onHandle_actors]
  split
  · rw [Option.map_map]
    congr 2
    funext x
    exact x.onHandle_hasEnded l
  · rfl

theorem discard_hasEnded (r : Registry S) (old : Option (Boxed T)) (j : ℕ) :
    (r.discard old).hasEnded j = r.hasEnded j := by
  cases old with
  | none => rfl
  | some b => exact onHandle_hasEnded r b.id _ j

/-- A fresh actor has not ended. -/
theorem spawn_hasEnded {x : Spawned S} (hq : q.actors = r.actors ++ [x])
    (hx : x.sys.hasEnded = false) (j : ℕ) : q.hasEnded j = r.hasEnded j := by
  rw [hasEnded_getD, hasEnded_getD, hq, List.getElem?_append]
  by_cases hj : j < r.actors.length
  · rw [if_pos hj]
  · rw [if_neg hj, List.getElem?_eq_none (Nat.le_of_not_lt hj), List.getElem?_singleton]
    split <;> simp [hx]

variable [DecidableEq T]

namespace RegistryStep

variable {l : RegistryLabel S} {es : List (RegistryEvent T)}

/-- An actor ends in a step of its own, which tells so. -/
theorem hasEnded (h : RegistryStep r l es q) {j : ℕ} (hj : q.hasEnded j = true) :
    r.hasEnded j = true ∨ .ended j ∈ es := by
  have hsame : q.hasEnded j = r.hasEnded j → r.hasEnded j = true ∨ .ended j ∈ es :=
    fun he => .inl (he.symm.trans hj)
  cases h with
  | spawn t E a c => exact hsame (spawn_hasEnded rfl rfl j)
  | act i x l s hx hs hu =>
    have hi := (List.getElem?_eq_some_iff.mp hx).1
    change Registry.hasEnded { r with actors := r.actors.set i { x with sys := s } } j = true at hj
    rw [hasEnded_getD, List.getElem?_set] at hj
    by_cases hij : i = j
    · subst hij
      rw [if_pos rfl, if_pos hi] at hj
      have hs' : s.hasEnded = true := hj
      cases hx' : x.sys.hasEnded with
      | true => exact .inl ((hasEnded_eq hx).trans hx')
      | false => exact .inr (by simp [hs'])
    · rw [if_neg hij, ← hasEnded_getD] at hj
      exact .inl hj
  | hands t b hl hm ht hr => exact hsame (onHandle_hasEnded r _ _ j)
  | tries t b hl hm ht hr => exact hsame (onHandle_hasEnded r _ _ j)
  | misses t hd => exact hsame rfl
  | refuses self hl hadm hd => exact hsame (onHandle_hasEnded r _ _ j)
  | locks op hl hadm hd => exact hsame rfl
  | registers self hl => exact hsame (onHandle_hasEnded r _ _ j)
  | replaces self hl =>
    exact hsame ((onHandle_hasEnded _ _ _ j).trans (onHandle_hasEnded r _ _ j))
  | unregisters t hl => exact hsame rfl
  | respawns t hl =>
    exact hsame ((discard_hasEnded _ _ j).trans
      ((onHandle_hasEnded _ _ _ j).trans (spawn_hasEnded rfl rfl j)))

theorem answers_end_nothing (h : RegistryStep r l es q)
    (hm : (∃ t i, .handed t i ∈ es) ∨ ∃ t i, .tried t (some i) ∈ es) (j : ℕ) : .ended j ∉ es := by
  cases h with
  | act i x l s hx hs hu =>
    rcases hm with ⟨t, i, hm⟩ | ⟨t, i, hm⟩ <;> split at hm <;> simp at hm
  | _ => simp

/-- Who gets an address from `from_registry`, and which. -/
theorem handed_cases (h : RegistryStep r l es q) {t : T} {i : ℕ} (hm : .handed t i ∈ es) :
    (∃ b, r.lock = none ∧ l = .enter (.fromRegistry t) ∧ r.map t = some b ∧ b.id = i ∧
      r.running b = true) ∨ r.lock = some (.fromRegistry t) ∧ i = r.actors.length := by
  cases h with
  | hands t' b hl hb ht hr =>
    simp only [List.mem_singleton, RegistryEvent.handed.injEq] at hm
    obtain ⟨rfl, rfl⟩ := hm
    exact .inl ⟨b, hl, rfl, hb, rfl, hr⟩
  | respawns t' hl =>
    simp only [List.mem_cons, List.not_mem_nil, or_false, reduceCtorEq, false_or,
      RegistryEvent.handed.injEq] at hm
    obtain ⟨rfl, rfl⟩ := hm
    exact .inr ⟨hl, rfl⟩
  | act i x l s hx hs hu => split at hm <;> simp at hm
  | _ => simp at hm

theorem tried_cases (h : RegistryStep r l es q) {t : T} {i : ℕ} (hm : .tried t (some i) ∈ es) :
    ∃ b, r.lock = none ∧ l.looksUp = some t ∧ r.map t = some b ∧ b.id = i ∧
      r.running b = true := by
  cases h with
  | tries t' b hl hb ht hr =>
    simp only [List.mem_singleton, RegistryEvent.tried.injEq, Option.some_inj] at hm
    obtain ⟨rfl, rfl⟩ := hm
    exact ⟨b, hl, rfl, hb, rfl, hr⟩
  | act i x l s hx hs hu => split at hm <;> simp at hm
  | _ => simp at hm

theorem refused_cases (h : RegistryStep r l es q) {self : Boxed T} (hm : .refused self ∈ es) :
    r.lock = none ∧ l.looksUp = some self.type ∧ r.inspect (.register self) = .refuse ∧
      q.map = r.map ∧ q.lock = r.lock := by
  cases h with
  | refuses self' hl ha hd =>
    simp only [List.mem_singleton, RegistryEvent.refused.injEq] at hm
    subst hm
    exact ⟨hl, rfl, hd, rfl, rfl⟩
  | act i x l s hx hs hu => split at hm <;> simp at hm
  | _ => simp at hm

/-- What a lookup without an answer, or with a new one, tells of the entry. -/
theorem looked_up (h : RegistryStep r l es q) (hl : r.lock = none) {t : T}
    (ht : l.looksUp = some t) {b : Boxed T} (hb : r.map t = some b) (hbt : b.type = t) :
    r.stopped b = true ∨ .handed t b.id ∈ es ∨ .tried t (some b.id) ∈ es ∨
      ∃ self, .refused self ∈ es ∧ self.type = t := by
  cases h with
  | hands t' b' hl' hb' ht' hr =>
    obtain rfl := Option.some_inj.mp ht
    obtain rfl := Option.some_inj.mp (hb'.symm.trans hb)
    exact .inr (.inl (by simp))
  | tries t' b' hl' hb' ht' hr =>
    obtain rfl := Option.some_inj.mp ht
    obtain rfl := Option.some_inj.mp (hb'.symm.trans hb)
    exact .inr (.inr (.inl (by simp)))
  | misses t' hd =>
    obtain rfl := Option.some_inj.mp ht
    exact .inl (hd hl b hb hbt)
  | refuses self hl' ha hd =>
    obtain rfl := Option.some_inj.mp ht
    exact .inr (.inr (.inr ⟨self, by simp, rfl⟩))
  | locks op hl' ha hd =>
    cases op with
    | register self =>
      obtain rfl := Option.some_inj.mp ht
      exact .inl (hd rfl b hb hbt)
    | fromRegistry t' =>
      obtain rfl := Option.some_inj.mp ht
      exact .inl (hd rfl b hb hbt)
    | _ => cases ht
  | _ => cases ht

end RegistryStep

/-! ### Freshness -/

namespace Safe

/-- An address is seen to have stopped if some clone was awaited, itself excepted. -/
theorem stopped_iff_resolved (h : r.Safe) {b : Boxed T} : r.stopped b = true ↔
    ∃ (x : Spawned S) (hd : Handle), r.actors[b.id]? = some x ∧
      x.sys.handle? b.handle = some hd ∧ hd.spent = false ∧ ∃ i o, .resolved i o ∈ x.sys.trace := by
  unfold stopped peek
  cases hx : r.actors[b.id]? with
  | none => simp
  | some x =>
    obtain ⟨a, c, hr⟩ := h.alive b.id x hx
    cases hh : x.sys.handle? b.handle with
    | none => simp [hh]
    | some hd =>
      simp only [hh, hr.peek_isSome]
      constructor
      · rintro ⟨hs, ho⟩
        exact ⟨x, hd, rfl, hh, hs, ho⟩
      · rintro ⟨y, hd', hy, hh', hs, ho⟩
        obtain rfl := Option.some_inj.mp hy
        rw [hh, Option.some_inj] at hh'
        subst hh'
        exact ⟨hs, ho⟩

theorem settled_iff (h : r.Safe) {t : T} : r.Settled t ↔
    ∀ b, r.map t = some b → r.hasEnded b.id = true → r.stopped b = true :=
  forall_congr' fun _ => imp_congr_right fun _ => imp_congr_right fun _ =>
    h.stopped_iff_resolved.symm

/-- A settled entry that counts as running has not ended. -/
theorem not_ended_of_running (h : r.Safe) {t : T} (hset : r.Settled t) {b : Boxed T}
    (hm : r.map t = some b) (hr : r.running b = true) : r.hasEnded b.id = false := by
  rw [← Bool.not_eq_true]
  intro he
  rw [← Bool.not_eq_false, ← stopped_iff] at hr
  exact hr (h.settled_iff.mp hset b hm he)

/-- `register` refuses because of the entry that it takes for running. -/
theorem refused_running (h : r.Safe) {self : Boxed T}
    (hd : r.inspect (.register self) = .refuse) :
    ∃ b, r.map self.type = some b ∧ r.running b = true := by
  cases hm : r.map self.type with
  | none => simp [inspect, hm] at hd
  | some b =>
    refine ⟨b, rfl, ?_⟩
    rw [← Bool.not_eq_false, ← stopped_iff]
    intro hs
    simp [inspect, hm, h.downcast_entry hm, hs] at hd

/-- One lookup is fresh exactly if it finds a settled entry. -/
theorem fresh_iff_sound (h : r.Safe) {l : RegistryLabel S} (hst : Registry.step r l = some q) :
    r.Fresh l q ↔ r.Sound l q := by
  obtain ⟨es, hs⟩ := step_cases hst
  have hes : ∀ es', q.trace = r.trace ++ es' → es' = es := fun es' he =>
    List.append_cancel_left (he.symm.trans hs.trace)
  constructor
  · intro hf hl t ht
    obtain ⟨hhand, htry, href⟩ := hf es hs.trace
    rw [h.settled_iff]
    intro b hb he
    rcases hs.looked_up hl ht hb (h.typed t b hb).1 with hstop | hm | hm | ⟨self, hm, rfl⟩
    · exact hstop
    · exact absurd he (by rw [(hhand t _ hm).1]; nofun)
    · exact absurd he (by rw [(htry t _ hm).1]; nofun)
    · obtain ⟨b', hb', he'⟩ := href self hm
      obtain rfl := Option.some_inj.mp (hb.symm.trans hb')
      exact absurd he (by rw [he']; nofun)
  · intro hsound es' he
    obtain rfl := hes es' he
    -- a step that answers ends nothing
    have hafter : ∀ i, .ended i ∉ es' → r.hasEnded i = false → q.hasEnded i = false := by
      intro i hi hr
      rw [← Bool.not_eq_true]
      intro hq
      rcases hs.hasEnded hq with hr' | hi'
      · exact absurd hr' (by rw [hr]; nofun)
      · exact hi hi'
    refine ⟨fun t i hm => ?_, fun t i hm => ?_, fun self hm => ?_⟩
    · have hne : .ended i ∉ es' := hs.answers_end_nothing (.inl ⟨t, i, hm⟩) i
      have hr : r.hasEnded i = false := by
        rcases hs.handed_cases hm with ⟨b, hl, rfl, hb, rfl, hrun⟩ | ⟨-, rfl⟩
        · exact h.not_ended_of_running (hsound hl t rfl) hb hrun
        · rw [hasEnded_getD, List.getElem?_eq_none (le_refl _)]
          rfl
      exact ⟨hr, hafter i hne hr⟩
    · have hne : .ended i ∉ es' := hs.answers_end_nothing (.inr ⟨t, i, hm⟩) i
      obtain ⟨b, hl, ht, hb, rfl, hrun⟩ := hs.tried_cases hm
      have hr := h.not_ended_of_running (hsound hl t ht) hb hrun
      exact ⟨hr, hafter _ hne hr⟩
    · obtain ⟨hl, ht, hd, -, -⟩ := hs.refused_cases hm
      obtain ⟨b, hb, hrun⟩ := h.refused_running hd
      exact ⟨b, hb, h.not_ended_of_running (hsound hl _ ht) hb hrun⟩

end Safe

theorem safe_step {l : RegistryLabel S} (h : r.Safe) (hst : step r l = some q) : q.Safe := by
  obtain ⟨es, hs⟩ := step_cases hst
  exact h.step hs

/-- **Registry freshness.**  Along a run, every address that `from_registry` or
`try_from_registry` hands out is one of an actor that has not ended, and
`register` is refused only for a service that has not ended, exactly if every
lookup finds a settled entry. -/
theorem registry_fresh_iff (S : Program T) (ls : List (RegistryLabel S)) :
    (system S).Along Fresh (init S) ls ↔ (system S).Along Sound (init S) ls :=
  Machine.along_congr (fun _ _ _ => safe_step) (fun _ _ _ h hst => h.fresh_iff_sound hst)
    (Safe.init S)

/-! ### Entries -/

/-- The entry of a service that has not ended leaves the map into the hands of a
caller of `replace` or `unregister`. -/
theorem Safe.leaves (h : r.Safe) {l : RegistryLabel S} {es : List (RegistryEvent T)}
    (hs : RegistryStep r l es q) {t : T} {b : Boxed T} (hb : r.map t = some b) :
    q.map t = some b ∨ r.hasEnded b.id = true ∨
      (∃ new, .replaced new (some b) ∈ es ∧ new.type = t) ∨ .unregistered t (some b) ∈ es := by
  cases hs with
  | registers self hl =>
    by_cases ht : t = self.type
    · subst ht
      exact .inr (.inl (h.locked _ hl rfl b hb))
    · exact .inl ((Function.update_of_ne ht _ _).trans hb)
  | replaces self hl =>
    by_cases ht : t = self.type
    · subst ht
      exact .inr (.inr (.inl ⟨r.cloned self, by simp [hb, h.downcast_entry hb], rfl⟩))
    · exact .inl ((Function.update_of_ne ht _ _).trans hb)
  | unregisters t' hl =>
    by_cases ht : t = t'
    · subst ht
      exact .inr (.inr (.inr (by simp [hb, h.downcast_entry hb])))
    · exact .inl ((Function.update_of_ne ht _ _).trans hb)
  | respawns t' hl =>
    by_cases ht : t = t'
    · subst ht
      exact .inr (.inl (h.locked _ hl rfl b hb))
    · refine .inl ?_
      show (((r.spawnService t').insert _).discard (r.map t')).map t = some b
      rw [(discard_same _ _).1]
      exact (Function.update_of_ne ht _ _).trans hb
  | _ => exact .inl hb

theorem RegistryStep.others {l : RegistryLabel S} {es : List (RegistryEvent T)}
    (hs : RegistryStep r l es q) {t : T} (ht : ∀ op, r.lock = some op → l = .commit → op.key ≠ t) :
    q.map t = r.map t := by
  cases hs with
  | registers self hl => exact Function.update_of_ne (ht _ hl rfl).symm _ _
  | replaces self hl => exact Function.update_of_ne (ht _ hl rfl).symm _ _
  | unregisters t' hl => exact Function.update_of_ne (ht _ hl rfl).symm _ _
  | respawns t' hl =>
    show (((r.spawnService t').insert _).discard (r.map t')).map t = _
    rw [(discard_same _ _).1]
    exact Function.update_of_ne (ht _ hl rfl).symm _ _
  | _ => rfl

/-! ### Equal lookups -/

/-- Since the last answer of `from_registry` nothing took the entry away. -/
def Held (r : Registry S) : Prop :=
  ∀ xs ys t i, r.trace = xs ++ .handed t i :: ys → (∀ e ∈ ys, e.Spares t i) →
    ∃ b, r.map t = some b ∧ b.id = i ∧ r.hasEnded i = false

/-- Two lookups with no end, `replace` or `unregister` between them agree. -/
def SameId (r : Registry S) : Prop :=
  ∀ xs ys zs t i j, r.trace = xs ++ .handed t i :: (ys ++ .handed t j :: zs) →
    (∀ e ∈ ys, e.Spares t i) → i = j

/-- A `from_registry` that has the lock finds a settled entry. -/
def Settles (r : Registry S) (l : RegistryLabel S) (_ : Registry S) : Prop :=
  r.lock = none → ∀ t, l = .enter (.fromRegistry t) → r.Settled t

/-- An entry that has not ended stays, unless an event tells otherwise. -/
theorem Safe.entry_stays (h : r.Safe) {l : RegistryLabel S} {es : List (RegistryEvent T)}
    (hs : RegistryStep r l es q) {t : T} {b : Boxed T} (hb : r.map t = some b)
    (he : r.hasEnded b.id = false) (hes : ∀ e ∈ es, e.Spares t b.id) :
    q.map t = some b ∧ q.hasEnded b.id = false := by
  constructor
  · rcases h.leaves hs hb with hq | hend | ⟨new, hm, ht⟩ | hm
    · exact hq
    · exact absurd hend (by rw [he]; nofun)
    · exact absurd ht (hes _ hm)
    · exact absurd rfl (hes _ hm)
  · rw [← Bool.not_eq_true]
    intro hq
    rcases hs.hasEnded hq with hend | hm
    · exact absurd hend (by rw [he]; nofun)
    · exact absurd rfl (hes _ hm)

/-- A new service is registered, and nothing else happened. -/
theorem RegistryStep.respawned {l : RegistryLabel S} {es : List (RegistryEvent T)}
    (hs : RegistryStep r l es q) {t : T} {i : ℕ} (hm : .handed t i ∈ es)
    (hl : r.lock = some (.fromRegistry t)) : ∃ b, q.map t = some b ∧ b.id = i := by
  cases hs with
  | respawns t' hl' =>
    obtain rfl : t = t' := by simpa [hl] using hl'
    refine ⟨(r.spawnService t).cloned ⟨t, r.actors.length, 1⟩, ?_, ?_⟩
    · show (((r.spawnService t).insert _).discard (r.map t)).map t = _
      rw [(discard_same _ _).1]
      exact Function.update_self _ _ _
    · simpa [cloned, eq_comm] using hm
  | act i x l s hx hs hu => split at hm <;> simp at hm
  | hands t' b hl' => simp [hl] at hl'
  | _ => simp at hm

theorem Held.step (hh : r.Held) (h : r.Safe) {l : RegistryLabel S} (hst : step r l = some q)
    (hset : r.Settles l q) : q.Held := by
  obtain ⟨es, hs⟩ := step_cases hst
  intro xs ys t i htr hys
  rw [hs.trace] at htr
  rcases split_append htr with ⟨ys', htr', rfl⟩ | ⟨xs', rfl, -⟩
  · -- the address was handed out before
    obtain ⟨b, hb, rfl, he⟩ := hh xs ys' t i htr' fun e hm => hys e (List.mem_append_left _ hm)
    obtain ⟨hq, hqe⟩ := h.entry_stays hs hb he fun e hm => hys e (List.mem_append_right _ hm)
    exact ⟨b, hq, rfl, hqe⟩
  · have hm : .handed t i ∈ xs' ++ .handed t i :: ys := by simp
    have hend : r.hasEnded i = false → q.hasEnded i = false := by
      intro hr
      rw [← Bool.not_eq_true]
      intro hq
      rcases hs.hasEnded hq with hr' | hi
      · exact absurd hr' (by rw [hr]; nofun)
      · exact hs.answers_end_nothing (.inl ⟨t, i, hm⟩) i hi
    rcases hs.handed_cases hm with ⟨b, hl, rfl, hb, rfl, hrun⟩ | ⟨hl, rfl⟩
    · have he := h.not_ended_of_running (hset hl t rfl) hb hrun
      exact ⟨b, (hs.others fun _ hop => by simp [hl] at hop).trans hb, rfl, hend he⟩
    · obtain ⟨b, hb, hid⟩ := hs.respawned hm hl
      refine ⟨b, hb, hid, hend ?_⟩
      rw [hasEnded_getD, List.getElem?_eq_none (le_refl _)]
      rfl

/-- A step answers one lookup at most. -/
theorem RegistryStep.one_answer {l : RegistryLabel S} {es : List (RegistryEvent T)}
    (hs : RegistryStep r l es q) {t : T} {i j : ℕ} {xs ys zs : List (RegistryEvent T)}
    (h : es = xs ++ .handed t i :: (ys ++ .handed t j :: zs)) : False := by
  have hsub : [RegistryEvent.handed t i, .handed t j] <+ es := by
    rw [h]
    refine (List.Sublist.cons_cons _ ?_).trans (List.sublist_append_right xs _)
    exact List.singleton_sublist.mpr (by simp)
  have hlen := hsub.length_le
  cases hs with
  | act i x l s hx hs hu => split at hlen <;> simp at hlen
  | respawns t' hl => cases hsub.eq_of_length rfl
  | _ => simp at hlen

theorem SameId.step (hsame : r.SameId) (hh : r.Held) (h : r.Safe) {l : RegistryLabel S}
    (hst : Registry.step r l = some q) : q.SameId := by
  obtain ⟨es, hs⟩ := step_cases hst
  intro xs ys zs t i j htr hys
  rw [hs.trace, ← List.cons_append, ← List.append_assoc] at htr
  rcases split_append htr with ⟨zs', htr', rfl⟩ | ⟨ys', hes, hxs⟩
  · refine hsame xs ys zs' t i j ?_ hys
    rw [htr', List.append_assoc, List.cons_append]
  · -- the second answer is new, and so there is an entry for the first
    rcases split_append hxs.symm with ⟨v, htr', rfl⟩ | ⟨xs', rfl, rfl⟩
    · have hm : .handed t j ∈ es := by simp [hes]
      obtain ⟨b, hb, rfl, he⟩ := hh xs v t i htr' fun e hm => hys e (List.mem_append_left _ hm)
      rcases hs.handed_cases hm with ⟨b', -, -, hb', rfl, -⟩ | ⟨hl, -⟩
      · rw [hb, Option.some_inj] at hb'
        rw [hb']
      · have hend := h.locked _ hl rfl b hb
        rw [he] at hend
        cases hend
    · rw [List.append_assoc, List.cons_append] at hes
      exact (hs.one_answer hes).elim

/-! ### Safety -/

/-- Who gets an entry back holds it. -/
theorem Safe.returned_held (h : r.Safe) {l : RegistryLabel S} {es : List (RegistryEvent T)}
    (hs : RegistryStep r l es q) {b : Boxed T}
    (hb : b ∈ es.filterMap RegistryEvent.returned) : q.holds b = true := by
  cases hs with
  | replaces self hl =>
    obtain ⟨hself, hnot⟩ := h.moved self (by rw [hl]; rfl)
    have hold : r.map self.type = some b := by
      simpa [RegistryEvent.returned, h.displaced] using hb
    have hbh := (h.typed _ b hold).2
    have hne : b ≠ self := fun he => hnot (he ▸ hold)
    have hins : Spawned.Later (fun _ _ => True) r.actors (r.insert self).actors :=
      insert_later r self
    have hdrop := drop_later { r.insert self with lock := none } self
    exact holds_later hdrop (spares_of_ne hself hbh hne) (holds_later hins trivial hbh)
  | unregisters t hl =>
    have hold : r.map t = some b := by
      simpa [RegistryEvent.returned, h.displaced] using hb
    exact (h.typed t b hold).2
  | act i x l s hx hs hu => split at hb <;> simp [RegistryEvent.returned] at hb
  | _ => simp [RegistryEvent.returned] at hb

theorem RegistryStep.spawned_cases {l : RegistryLabel S} {es : List (RegistryEvent T)}
    (hs : RegistryStep r l es q) {new : Boxed T} (hm : .spawned new ∈ es) :
    l = .commit ∧ r.lock = some (.fromRegistry new.type) := by
  cases hs with
  | respawns t hl =>
    simp only [List.mem_cons, List.not_mem_nil, or_false, reduceCtorEq,
      RegistryEvent.spawned.injEq] at hm
    subst hm
    exact ⟨rfl, hl⟩
  | act i x l s hx hs hu => split at hm <;> simp at hm
  | _ => simp at hm

/-- The promises of the registry that hold whatever is looked up: in the state
`r`, and in every step that it can take. -/
structure Guarded (r : Registry S) : Prop where
  typed : ∀ t b, r.map t = some b → downcast t b = some b
  leaves : ∀ l q es t b, Registry.step r l = some q → q.trace = r.trace ++ es → r.map t = some b →
    q.map t ≠ some b → r.hasEnded b.id = false → q.holds b = true ∧
      ((∃ new, new.type = t ∧ .replaced new (some b) ∈ es) ∨ .unregistered t (some b) ∈ es)
  once : (r.trace.filterMap RegistryEvent.returned).Nodup
  awaits : ∀ t, r.lock = some (.fromRegistry t) → ∀ b, r.map t = some b → r.hasEnded b.id = true
  spawns : ∀ l q es new, Registry.step r l = some q → q.trace = r.trace ++ es →
    .spawned new ∈ es → l = .commit ∧ r.lock = some (.fromRegistry new.type)
  refuses : ∀ l q es self, Registry.step r l = some q → q.trace = r.trace ++ es →
    .refused self ∈ es → q.map = r.map ∧ q.lock = r.lock
  others : ∀ l q t, Registry.step r l = some q → q.map t ≠ r.map t →
    l = .commit ∧ ∃ op, r.lock = some op ∧ op.key = t

/-- Registry safety, with the agreement of lookups. -/
structure RegistrySafety (r : Registry S) : Prop extends Guarded r where
  same : SameId r

theorem Safe.guarded (h : r.Safe) : r.Guarded := by
  -- the events of a step are those that its trace has more
  have hev : ∀ l q es, Registry.step r l = some q → q.trace = r.trace ++ es →
      RegistryStep r l es q := by
    intro l q es hst htr
    obtain ⟨es', hs⟩ := step_cases hst
    rwa [List.append_cancel_left (htr.symm.trans hs.trace)]
  refine ⟨fun t b hb => h.downcast_entry hb, ?_, h.nodup, fun t hl => h.locked _ hl rfl, ?_, ?_, ?_⟩
  · intro l q es t b hst htr hb hq he
    have hs := hev l q es hst htr
    have hout : (∃ new, new.type = t ∧ .replaced new (some b) ∈ es) ∨
        .unregistered t (some b) ∈ es := by
      rcases h.leaves hs hb with hq' | hend | ⟨new, hm, ht⟩ | hm
      · exact absurd hq' hq
      · exact absurd hend (by rw [he]; nofun)
      · exact .inl ⟨new, ht, hm⟩
      · exact .inr hm
    refine ⟨h.returned_held hs (List.mem_filterMap.mpr ?_), hout⟩
    rcases hout with ⟨new, -, hm⟩ | hm
    · exact ⟨_, hm, rfl⟩
    · exact ⟨_, hm, rfl⟩
  · exact fun l q es new hst htr => (hev l q es hst htr).spawned_cases
  · intro l q es self hst htr hm
    exact ((hev l q es hst htr).refused_cases hm).2.2.2
  · intro l q t hst hq
    obtain ⟨es, hs⟩ := step_cases hst
    by_contra hno
    refine hq (hs.others fun op hop hl hkey => hno ⟨hl, op, hop, hkey⟩)

/-- **Registry safety.**  In every run the registry keeps its promises, and if
`from_registry` finds settled entries then its answers agree as well. -/
theorem registry_safe (ls : List (RegistryLabel S)) (h : (system S).run (init S) ls = some r) :
    r.Guarded ∧ ((system S).Along Settles (init S) ls → r.RegistrySafety) := by
  have hsafe : r.Safe := Machine.invariant (fun _ _ _ => safe_step) (Safe.init S) ⟨ls, h⟩
  refine ⟨hsafe.guarded, fun hset => ⟨hsafe.guarded, ?_⟩⟩
  have hinv : r.Safe ∧ r.Held ∧ r.SameId := by
    refine Machine.invariant_along (P := fun r : Registry S => r.Safe ∧ r.Held ∧ r.SameId)
      (fun r l q hr hC hst => ?_) ⟨Safe.init S, ?_, ?_⟩ hset h
    · obtain ⟨hr, hh, hsame⟩ := hr
      exact ⟨safe_step hr hst, hh.step hr hst hC, hsame.step hh hr hst⟩
    · intro xs ys t i he
      simp [init] at he
    · intro xs ys zs t i j he
      simp [init] at he
  exact hinv.2.2

/-! ### A service that nobody awaits -/

end Registry

namespace Tally

/-- One service type, the tally. -/
def services : Program Unit := ⟨fun _ => tally, fun _ => (0 : ℕ)⟩

/-- The service is spawned, starts, is stopped and ends. -/
def life : List (RegistryLabel services) :=
  [.enter (.fromRegistry ()), .commit, .actor 0 () (.loop (.hook true)),
    .actor 0 () (.op (.begin .stop 1)), .actor 0 () (.op (.push 0)), .actor 0 () (.loop .recv),
    .actor 0 () (.loop (.hook true)), .actor 0 () (.loop .notify)]

end Tally

namespace Registry

/-- Nobody awaited the service that ended, so it is handed out. -/
theorem not_registry_fresh : ¬ ∀ ls : List (RegistryLabel Tally.services),
    (system Tally.services).Along Fresh (init Tally.services) ls := by
  intro h
  have hfresh := (h (Tally.life ++ [.enter (.fromRegistry ())])).at_step rfl rfl
  have hdead := ((hfresh [.handed () 0] rfl).1 () 0 (by simp)).1
  exact absurd hdead (by decide)

/-- Once somebody awaits it, the next lookup finds that it has ended. -/
theorem not_registry_safe : ¬ ∀ (ls : List (RegistryLabel Tally.services))
    (r : Registry Tally.services), (system Tally.services).run (init Tally.services) ls = some r →
      r.RegistrySafety := by
  intro h
  have hsafe := h (Tally.life ++ [.enter (.fromRegistry ()), .actor 0 () (.watch (.await 1)),
    .enter (.fromRegistry ()), .commit]) _ rfl
  have hsame := hsafe.same [.spawned ⟨(), 0, 2⟩, .handed () 0, .ended 0] [.spawned ⟨(), 1, 2⟩] []
    () 0 1 rfl (by simp [RegistryEvent.Spares])
  exact absurd hsame (by decide)

/-- A service that runs is found again. -/
theorem registry_safe_of_running : ∃ r : Registry Tally.services,
    (system Tally.services).run (init Tally.services)
      [.enter (.fromRegistry ()), .commit, .enter (.fromRegistry ())] = some r ∧
    r.trace = [.spawned ⟨(), 0, 2⟩, .handed () 0, .handed () 0] ∧ r.RegistrySafety := by
  refine ⟨_, rfl, rfl, (registry_safe
    [.enter (.fromRegistry ()), .commit, .enter (.fromRegistry ())] rfl).2 ?_⟩
  refine Machine.along_cons.mpr ?_
  rintro _ ⟨⟩
  refine ⟨fun _ t _ b hb => (by cases hb), Machine.along_cons.mpr ?_⟩
  rintro _ ⟨⟩
  refine ⟨fun _ t hl => (by cases hl), Machine.along_cons.mpr ?_⟩
  rintro _ ⟨⟩
  refine ⟨fun _ t _ b hb he => ?_, trivial⟩
  -- the entry is the running service
  cases hb
  cases he

end Registry

end Hannibal
