/-
What the registry answers when it is asked.

`already_running`, `try_from_registry`, `from_registry` and `register` look at the
same entry, each with combinators of its own.  The last three agree on it; the first
one says `true` where they find the service stopped:

* `running_iff` — when an entry is found, handed out and kept;
* **`questions_agree_iff`** — the four agree only on a service that was not
  registered.
-/
import Hannibal.Freshness

namespace Hannibal

namespace Registry

variable {T : Type} [DecidableEq T] {S : Program T} {r : Registry S} {t : T}

/-- `Service::already_running` -/
def alreadyRunning (r : Registry S) (t : T) : Option Bool :=
  (r.map t).bind fun b => (downcast t b).map r.stopped

/-- `try_from_registry` answers with an `Addr`. -/
def Found (r : Registry S) (t : T) : Prop :=
  ∃ i, (r.tryFromRegistry t).trace = r.trace ++ [.tried t (some i)]

/-- `from_registry` returns the registered `Addr` and spawns nothing. -/
def Handed (r : Registry S) (t : T) : Prop :=
  ∃ b, r.map t = some b ∧ r.inspect (.fromRegistry t) = .hand b

/-- `register` of any other `Addr` returns `ServiceStillRunning`. -/
def StillRunning (r : Registry S) (t : T) : Prop :=
  ∀ self : Boxed T, self.type = t → r.inspect (.register self) = .refuse

/-- The questions have one answer. -/
structure QuestionsAgree (r : Registry S) (t : T) : Prop where
  found : r.alreadyRunning t = some true ↔ r.Found t
  handed : r.alreadyRunning t = some true ↔ r.Handed t
  refused : r.alreadyRunning t = some true ↔ r.StillRunning t
  stopped : r.alreadyRunning t = some false ↔ ∃ b, r.map t = some b ∧ r.stopped b = true
  unregistered : r.alreadyRunning t = none ↔ r.map t = none

omit [DecidableEq T] in
theorem running_eq (r : Registry S) (b : Boxed T) : r.running b = !r.stopped b := by
  unfold running stopped
  cases r.peek b <;> rfl

/-- Without an entry nothing is found, and anything may be registered. -/
theorem unregistered_answers (hl : r.lock = none) (hm : r.map t = none) :
    r.alreadyRunning t = none ∧ ¬ r.Found t ∧ ¬ r.Handed t ∧ ¬ r.StillRunning t := by
  refine ⟨?_, ?_, ?_, ?_⟩
  · rw [alreadyRunning, hm]
    rfl
  · rintro ⟨i, hi⟩
    simp [tryFromRegistry, hl, hm, record] at hi
  · rintro ⟨b, hb, -⟩
    rw [hm] at hb
    cases hb
  · intro hrefuse
    have := hrefuse ⟨t, 0, 0⟩ rfl
    simp [inspect, hm] at this

/-- The last three ask whether the entry is `running`, the first one whether it is
`stopped`. -/
theorem running_iff (hl : r.lock = none) {b : Boxed T} (hm : r.map t = some b) (hb : b.type = t) :
    r.alreadyRunning t = some (r.stopped b) ∧ (r.Found t ↔ r.running b = true) ∧
      (r.Handed t ↔ r.running b = true) ∧ (r.StillRunning t ↔ r.running b = true) := by
  have hd : downcast t b = some b := downcast_eq_some.mpr ⟨hb, rfl⟩
  have hbind : (r.map t).bind (downcast t) = some b := by rw [hm, Option.bind_some, hd]
  refine ⟨?_, ?_, ?_, ?_⟩
  · rw [alreadyRunning, hm, Option.bind_some, hd]
    rfl
  · unfold Found
    rw [tryFromRegistry, hl, hbind]
    by_cases hr : r.running b = true
    · simp [hr, Option.filter, record, onHandle]
    · simp [hr, Option.filter, record]
  · unfold Handed
    rw [inspect, hbind]
    by_cases hr : r.running b = true
    · simp [hr, Option.filter, hm]
    · simp [hr, Option.filter]
  · rw [running_eq]
    constructor
    · intro h
      have hself := h ⟨t, 0, 0⟩ rfl
      simp only [inspect, hm, hd, Option.map_some, Option.getD_some] at hself
      split at hself
      · cases hself
      · next hs => simpa using hs
    · intro hs self hself
      rw [Bool.not_eq_true'] at hs
      simp [inspect, hself, hm, hd, hs]

/-- **The registry's questions agree only where nothing is registered.**  What
`try_from_registry` finds is what `from_registry` hands out and `register` keeps, but
`already_running` answers `Some(false)` to it, and `Some(true)` to an instance that counts
as stopped. -/
theorem questions_agree_iff {ls : List (RegistryLabel S)}
    (h : (system S).run (init S) ls = some r) (hl : r.lock = none) (t : T) :
    (r.QuestionsAgree t ↔ r.map t = none) ∧ (r.Found t ↔ r.Handed t) ∧
      (r.Found t ↔ r.StillRunning t) ∧ (r.Found t ↔ r.alreadyRunning t = some false) ∧
      ((∃ b, r.map t = some b ∧ r.stopped b = true) ↔ r.alreadyRunning t = some true) ∧
      (r.map t = none ↔ r.alreadyRunning t = none) := by
  have hsafe : r.Safe := Machine.invariant (fun _ _ _ => safe_step) (Safe.init S) ⟨ls, h⟩
  rcases hm : r.map t with _ | b
  · obtain ⟨hask, hfound, hhanded, hrefused⟩ := unregistered_answers hl hm
    refine ⟨⟨fun _ => rfl, fun _ => ?_⟩, by simp [hfound, hhanded], by simp [hfound, hrefused],
      by simp [hfound, hask], by simp [hask], by simp [hask]⟩
    exact ⟨by simp [hask, hfound], by simp [hask, hhanded], by simp [hask, hrefused],
      by simp [hask, hm], by simp [hask, hm]⟩
  · obtain ⟨hask, hfound, hhanded, hrefused⟩ := running_iff hl hm (hsafe.typed t b hm).1
    rw [running_eq] at hfound hhanded hrefused
    refine ⟨⟨fun hagree => ?_, fun hno => by cases hno⟩, hfound.trans hhanded.symm,
      hfound.trans hrefused.symm, ?_, ?_, by simp [hask]⟩
    · -- the answer to the first question is the opposite of the second
      have := hagree.found
      rw [hask, hfound, Option.some_inj] at this
      cases hs : r.stopped b <;> simp [hs] at this
    · rw [hfound, hask, Option.some_inj, Bool.not_eq_true']
    · simp [hask]

end Registry

/-- A service that was asked for and runs. -/
theorem not_questions_agree : ¬ ∀ (ls : List (RegistryLabel Tally.services))
    (r : Registry Tally.services), (Registry.system Tally.services).run (.init _) ls = some r →
    r.lock = none → ∀ t, r.QuestionsAgree t := by
  intro h
  obtain ⟨r, hr, hl, hfound, hask⟩ : ∃ r : Registry Tally.services,
      (Registry.system Tally.services).run (.init _) [.enter (.fromRegistry ()), .commit] = some r ∧
      r.lock = none ∧ r.Found () ∧ r.alreadyRunning () = some false := ⟨_, rfl, rfl, ⟨0, rfl⟩, rfl⟩
  have hagree := (h _ r hr hl ()).found.mpr hfound
  rw [hask] at hagree
  cases hagree

/-- The service is found, and `already_running` says `Some(false)`. -/
theorem questions_agree_iff_of_service : ∃ r : Registry Tally.services,
    (Registry.system Tally.services).run (.init _) [.enter (.fromRegistry ()), .commit] = some r ∧
    (r.Found () ↔ r.alreadyRunning () = some false) := by
  obtain ⟨r, hr, hl⟩ : ∃ r : Registry Tally.services,
      (Registry.system Tally.services).run (.init _) [.enter (.fromRegistry ()), .commit] = some r ∧
      r.lock = none := ⟨_, rfl, rfl⟩
  exact ⟨r, hr, (Registry.questions_agree_iff hr hl ()).2.2.2.1⟩

end Hannibal
