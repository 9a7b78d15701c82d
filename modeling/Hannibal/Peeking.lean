/-
What the handles say of their actor.

`stopped` and `running` peek at the running future.  There is something to peek at
once some awaiter was resolved (`Reachable.peek_isSome`), and never on a handle that
was awaited itself, so the answer depends on who awaited whom:

* **`stopped_reports_iff`** — a handle reports the state of its actor as long as the
  loop runs, and behind its end exactly if some other handle was awaited and this one
  was not.
-/
import Hannibal.Actors

namespace Hannibal

variable {A : Actor}

/-- The handles with a `running` future: `Addr`, also inside an `OwningAddr`, and
`WeakAddr`. -/
def HandleKind.peeks : HandleKind → Bool
  | .addr => true
  | .owningAddr => true
  | .weakAddr => true
  | _ => false

/-- The event loop has notified its stop, or its future is gone. -/
def Phase.over : Phase A → Bool
  | .releasing _ => true
  | .ended _ => true
  | _ => false

namespace Sys

/-- `Addr::stopped` and `WeakAddr::stopped`: `self.running.peek().is_some()` -/
def stoppedAt (s : Sys A) (hd : Handle) : Bool := (s.running.peek hd.spent).isSome

/-- `Addr::running`: `self.running.peek().is_none()` -/
def runningAt (s : Sys A) (hd : Handle) : Bool := (s.running.peek hd.spent).isNone

/-- The handle reports the state of its actor. -/
def Reports (s : Sys A) (hd : Handle) : Prop :=
  (s.stoppedAt hd = true ↔ s.phase.over = true) ∧ (s.runningAt hd = false ↔ s.phase.over = true)

/-- Behind the end of the loop some awaiter was resolved, and the handle was not
awaited. -/
def Informed (s : Sys A) (hd : Handle) : Prop :=
  s.phase.over = true → hd.spent = false ∧ ∃ i r, .resolved i r ∈ s.trace

theorem runningAt_eq (s : Sys A) (hd : Handle) : s.runningAt hd = !s.stoppedAt hd := by
  unfold runningAt stoppedAt
  cases s.running.peek hd.spent <;> rfl

end Sys

theorem Phase.over_iff (p : Phase A) : p.over = true ↔ p.notice ≠ .pending := by
  cases p with
  | releasing o | ended o => cases o <;> simp [Phase.over, Phase.notice, Exit.notice]
  | _ => simp [Phase.over, Phase.notice]

namespace Environment.Reachable

variable {E : Environment A} {a : A.State} {c : A.Ctx} {s t : Sys A}

theorem over_iff (h : E.Reachable a c s) : s.phase.over = true ↔ s.hasEnded = true := by
  rw [h.hasEnded_iff, Phase.over_iff]

/-- The loop does not come back. -/
theorem over_run (h : E.Reachable a c s) (hr : E.system.Reaches s t) (ho : s.phase.over = true) :
    t.phase.over = true := by
  have hinv := Machine.invariant (M := E.system)
    (P := fun u => E.Reachable a c u ∧ u.hasEnded = true) ?_ ⟨h, h.over_iff.mp ho⟩ hr
  · exact hinv.1.over_iff.mpr hinv.2
  · rintro u l v ⟨hu, he⟩ hst
    exact ⟨hu.next hst, hu.hasEnded_step hst he⟩

theorem stoppedAt_iff (h : E.Reachable a c s) (hd : Handle) :
    s.stoppedAt hd = true ↔ hd.spent = false ∧ ∃ i r, .resolved i r ∈ s.trace :=
  h.peek_isSome hd.spent

/-- Nobody is resolved before the end. -/
theorem over_of_stoppedAt (h : E.Reachable a c s) {hd : Handle} (hs : s.stoppedAt hd = true) :
    s.phase.over = true := h.over_iff.mpr (h.hasEnded_of_peek hs)

theorem reports_iff (h : E.Reachable a c s) (hd : Handle) : s.Reports hd ↔ s.Informed hd := by
  have hstop : (s.stoppedAt hd = true ↔ s.phase.over = true) ↔ s.Informed hd := by
    constructor
    · intro hr ho
      exact (h.stoppedAt_iff hd).mp (hr.mpr ho)
    · intro hi
      exact ⟨h.over_of_stoppedAt, fun ho => (h.stoppedAt_iff hd).mpr (hi ho)⟩
  have hrun : (s.runningAt hd = false ↔ s.phase.over = true) ↔
      (s.stoppedAt hd = true ↔ s.phase.over = true) := by
    rw [Sys.runningAt_eq, Bool.not_eq_false']
  rw [Sys.Reports, hrun, and_self, hstop]

end Environment.Reachable

/-- **`stopped` and `running` report the state of the actor exactly on an informed
handle.**  Informed handles agree, and on one that stays informed `stopped` stays true. -/
theorem stopped_reports_iff {E : Environment A} {a : A.State} {c : A.Ctx} {s : Sys A}
    (h : E.Reachable a c s) :
    (∀ i hd, s.handle? i = some hd → hd.kind.peeks = true → (s.Reports hd ↔ s.Informed hd)) ∧
    (∀ i hd j hd', s.handle? i = some hd → s.handle? j = some hd' → s.Informed hd →
      s.Informed hd' → s.stoppedAt hd = s.stoppedAt hd' ∧ s.runningAt hd = s.runningAt hd') ∧
    (∀ i hd hd' t, E.system.Reaches s t → s.handle? i = some hd → t.handle? i = some hd' →
      t.Informed hd' → s.stoppedAt hd = true → t.stoppedAt hd' = true) := by
  refine ⟨fun i hd _ _ => h.reports_iff hd, fun i hd j hd' _ _ hi hi' => ?_,
    fun i hd hd' t hr _ _ hi hs => ?_⟩
  · have hiff := ((h.reports_iff hd).mpr hi).1.trans ((h.reports_iff hd').mpr hi').1.symm
    have heq : s.stoppedAt hd = s.stoppedAt hd' := Bool.eq_iff_iff.mpr hiff
    rw [Sys.runningAt_eq, Sys.runningAt_eq, heq]
    exact ⟨rfl, rfl⟩
  · have ht : E.Reachable a c t := h.trans hr
    rw [ht.stoppedAt_iff]
    exact hi (h.over_run hr (h.over_of_stoppedAt hs))

namespace Tally

/-- The actor starts, is stopped and notifies its end. -/
def notified : List (Label tally) :=
  [.handle (.derive 0 .addr), .handle (.derive 0 .addr), .loop (.hook true), .op (.begin .stop 0),
    .op (.push 0), .loop .recv, .loop (.hook true), .loop .notify]

end Tally

/-- One of two clones was awaited, the other one knows. -/
theorem stopped_reports_iff_of_await : ∃ s, Tally.plain.system.run (Tally.spawn Tally.plain)
      (Tally.notified ++ [.watch (.await 1)]) = some s ∧
    (s.Reports ⟨.addr, true, false⟩ ↔ s.Informed ⟨.addr, true, false⟩) :=
  ⟨_, rfl, (stopped_reports_iff (Tally.reachable (E := Tally.plain)
    (Tally.notified ++ [.watch (.await 1)]) rfl)).1 2 ⟨.addr, true, false⟩ rfl rfl⟩

/-- Where nobody awaited the actor its end is not reported, and a clone that was awaited
does not report it any more. -/
theorem not_stopped_reports : (¬ ∀ s, Tally.plain.Reachable (0 : ℕ) (0 : ℕ) s →
      ∀ i hd, s.handle? i = some hd → hd.kind.peeks = true → s.Reports hd) ∧
    ¬ ∀ s t, Tally.plain.Reachable (0 : ℕ) (0 : ℕ) s → Tally.plain.system.Reaches s t →
      ∀ i hd hd', s.handle? i = some hd → t.handle? i = some hd' → s.stoppedAt hd = true →
        t.stoppedAt hd' = true := by
  constructor
  · intro h
    have hr := (h _ (Tally.reachable (E := Tally.plain) Tally.notified rfl) 1 _ rfl rfl).1
    exact absurd (hr.mpr rfl) (by decide)
  · intro h
    exact absurd (h _ _ (Tally.reachable (E := Tally.plain)
      (Tally.notified ++ [.watch (.await 1)]) rfl) ⟨[.watch (.await 2)], rfl⟩ 2 _ _ rfl rfl rfl)
      (by decide)

end Hannibal
