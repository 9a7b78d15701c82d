/-
One actor as a system.

Awaiting an `Addr` polls its clone of the running future; `OwningAddr::join`
makes a future that takes the spawned task's handle when it is first polled.
Together with the steps of the handles, the operations and the event loop this
is the machine `Environment.system`, whose runs are all interleavings; `Step`
and `step_cases` list what one step can do.
-/
import Hannibal.Environment
import Hannibal.Machine

namespace Hannibal

inductive WatchLabel where
  | await (h : ℕ)
  | join (h : ℕ)
  | pollJoin (j : ℕ)
  | dropJoin (j : ℕ)
  deriving DecidableEq, Repr

/-- What the runtime hands to the task's join handle: the actor if the loop's
future returned `Ok(actor)`, nothing if it returned an error, panicked or was
dropped. -/
def Phase.output {A : Actor} : Phase A → Option (Option A.State)
  | .ended (.ok a) => some (some a)
  | .ended _ => some none
  | _ => none

namespace Sys

variable {A : Actor}

/-- A poll of a join future: the first poll takes the handle out of the slot it
shares with the others, later ones wait for the task. -/
def pollJoin (s : Sys A) (j : ℕ) : Option (Sys A) :=
  match s.joins[j]? with
  | some .created =>
    if s.joinSlot then
      match s.phase.output with
      | some out =>
        some (({ s with joinSlot := false, joins := s.joins.set j (.done out) }).record
          [.joinPolled j, .joined j out])
      | none =>
        some (({ s with joinSlot := false, joins := s.joins.set j .holding }).record
          [.joinPolled j])
    else
      some (({ s with joins := s.joins.set j (.done none) }).record
        [.joinPolled j, .joined j none])
  | some .holding =>
    s.phase.output.map fun out =>
      ({ s with joins := s.joins.set j (.done out) }).record [.joined j out]
  | _ => none

def watchStep (s : Sys A) : WatchLabel → Option (Sys A)
  | .await h =>
    match s.handle? h with
    | some hd =>
      if hd.kind = .addr && !hd.spent then
        match s.running.poll with
        | .ready r =>
          some (({ s with
            running := s.running.complete r
            handles := s.handles.set h { hd with spent := true } }).record [.resolved h r])
        | .pending => none
      else none
    | none => none
  | .join h =>
    match s.handle? h with
    | some hd =>
      if hd.kind = .owningAddr then some { s with joins := s.joins ++ [.created] } else none
    | none => none
  | .pollJoin j => s.pollJoin j
  | .dropJoin j =>
    match s.joins[j]? with
    | some (.done _) => none
    | some _ => some { s with joins := s.joins.set j .dropped }
    | none => none

/-- A step of an observer of the actor's end, and what it records. -/
inductive WatchStep (s : Sys A) : Sys A → List (Event A) → Prop where
  | await (h : ℕ) (hd : Handle) (r : Except Canceled Unit) (hh : s.handle? h = some hd)
      (hk : hd.kind = .addr) (hs : hd.spent = false) (hr : s.running.poll = .ready r) :
      WatchStep s
        (({ s with
          running := s.running.complete r
          handles := s.handles.set h { hd with spent := true } }).record [.resolved h r])
        [.resolved h r]
  | join (h : ℕ) (hd : Handle) (hh : s.handle? h = some hd) (hk : hd.kind = .owningAddr) :
      WatchStep s { s with joins := s.joins ++ [.created] } []
  | takeDone (j : ℕ) (out : Option A.State) (hj : s.joins[j]? = some .created)
      (hs : s.joinSlot = true) (ho : s.phase.output = some out) :
      WatchStep s
        (({ s with joinSlot := false, joins := s.joins.set j (.done out) }).record
          [.joinPolled j, .joined j out])
        [.joinPolled j, .joined j out]
  | take (j : ℕ) (hj : s.joins[j]? = some .created) (hs : s.joinSlot = true)
      (ho : s.phase.output = none) :
      WatchStep s
        (({ s with joinSlot := false, joins := s.joins.set j .holding }).record [.joinPolled j])
        [.joinPolled j]
  | empty (j : ℕ) (hj : s.joins[j]? = some .created) (hs : s.joinSlot = false) :
      WatchStep s
        (({ s with joins := s.joins.set j (.done none) }).record
          [.joinPolled j, .joined j none])
        [.joinPolled j, .joined j none]
  | finish (j : ℕ) (out : Option A.State) (hj : s.joins[j]? = some .holding)
      (ho : s.phase.output = some out) :
      WatchStep s (({ s with joins := s.joins.set j (.done out) }).record [.joined j out])
        [.joined j out]
  | drop (j : ℕ) (st : JoinState A) (hj : s.joins[j]? = some st) (hd : ∀ out, st ≠ .done out) :
      WatchStep s { s with joins := s.joins.set j .dropped } []

theorem pollJoin_step {s t : Sys A} {j : ℕ} (h : s.pollJoin j = some t) :
    ∃ es, s.WatchStep t es := by
  simp only [pollJoin] at h
  split at h
  · next hj =>
    split at h
    · next hs =>
      split at h
      · next out ho =>
        cases h
        exact ⟨_, .takeDone j out hj hs ho⟩
      · next ho =>
        cases h
        exact ⟨_, .take j hj hs ho⟩
    · next hs =>
      cases h
      exact ⟨_, .empty j hj (by simpa using hs)⟩
  · next hj =>
    obtain ⟨out, ho, rfl⟩ := Option.map_eq_some_iff.mp h
    exact ⟨_, .finish j out hj ho⟩
  · cases h

theorem watchStep_cases {s t : Sys A} {l : WatchLabel} (h : s.watchStep l = some t) :
    ∃ es, s.WatchStep t es := by
  cases l with
  | await i =>
    simp only [watchStep] at h
    split at h
    · next hd hhd =>
      split at h
      · next hk =>
        simp only [Bool.and_eq_true, decide_eq_true_eq, Bool.not_eq_true'] at hk
        split at h
        · next r hr =>
          cases h
          exact ⟨_, .await i hd r hhd hk.1 hk.2 hr⟩
        · cases h
      · cases h
    · cases h
  | join i =>
    simp only [watchStep] at h
    split at h
    · next hd hhd =>
      split at h
      · next hk =>
        cases h
        exact ⟨_, .join i hd hhd hk⟩
      · cases h
    · cases h
  | pollJoin j => exact pollJoin_step h
  | dropJoin j =>
    simp only [watchStep] at h
    split at h
    · cases h
    · next st hd hj =>
      cases h
      exact ⟨_, .drop j st hj fun out ho => hd out (ho ▸ rfl)⟩
    · cases h

end Sys

/-! ### The machine -/

inductive Label (A : Actor) where
  | handle (l : HandleLabel)
  | op (l : OpLabel A)
  | loop (l : LoopLabel A)
  | watch (l : WatchLabel)

namespace Environment

variable {A : Actor}

def step (E : Environment A) (s : Sys A) : Label A → Option (Sys A)
  | .handle l => s.handleStep l
  | .op l => s.opStep l
  | .loop l => s.loopStep E l
  | .watch l => s.watchStep l

/-- All interleavings of one spawned actor. -/
def system (E : Environment A) : Machine (Sys A) (Label A) := ⟨E.step⟩

/-- The states of the actor spawned with value `a` and context `c`. -/
def Reachable (E : Environment A) (a : A.State) (c : A.Ctx) (s : Sys A) : Prop :=
  E.system.Reaches (E.init a c) s

/-- The four kinds of steps, with what they record. -/
inductive Step (E : Environment A) (s t : Sys A) : List (Event A) → Prop where
  | handle (l : HandleLabel) (h : s.handleStep l = some t) : Step E s t []
  | op (es : List (Event A)) (h : s.OpStep t es) : Step E s t es
  | loop (es : List (Event A)) (hb : s.contextBusy = false) (h : s.LoopStep E t es) : Step E s t es
  | watch (es : List (Event A)) (h : s.WatchStep t es) : Step E s t es

theorem step_cases {E : Environment A} {s t : Sys A} {l : Label A} (h : E.step s l = some t) :
    ∃ es, E.Step s t es := by
  cases l with
  | handle l => exact ⟨[], .handle l h⟩
  | op l =>
    obtain ⟨es, h⟩ := Sys.opStep_cases h
    exact ⟨es, .op es h⟩
  | loop l =>
    obtain ⟨hb, es, h⟩ := Sys.loopStep_cases h
    exact ⟨es, .loop es hb h⟩
  | watch l =>
    obtain ⟨es, h⟩ := Sys.watchStep_cases h
    exact ⟨es, .watch es h⟩

/-- What holds of a fresh actor and is preserved by every step between reachable
states holds in every reachable state. -/
theorem reachable_induction {E : Environment A} {a : A.State} {c : A.Ctx} {P : Sys A → Prop}
    (h0 : P (E.init a c))
    (hstep : ∀ s t es, E.Reachable a c s → E.Reachable a c t → P s → E.Step s t es → P t)
    {s : Sys A} (hs : E.Reachable a c s) : P s := by
  suffices h : E.Reachable a c s ∧ P s from h.2
  refine Machine.invariant (P := fun s => E.Reachable a c s ∧ P s) (fun s l t hP h => ?_)
    ⟨.refl _ _, h0⟩ hs
  obtain ⟨es, hst⟩ := step_cases h
  have ht : E.Reachable a c t := hP.1.trans (.single h)
  exact ⟨ht, hstep s t es hP.1 ht hP.2 hst⟩

end Environment

/-! ### An actor to run -/

/-- Adds up the numbers it is sent and answers with the sum.  What it sees of
the world is whether to go on: if not, `started` fails and handlers wait. -/
def tally : Actor where
  State := ℕ
  Ctx := ℕ
  Error := Unit
  Message := ℕ
  Response := ℕ
  Item := ℕ
  Fut := ℕ
  World := Bool
  default := 0
  started w a c := (if w then .ok () else .error (), a, c + 1)
  stopped _ a c := (a, c + 1)
  finished _ a c := (a, c + 1)
  handle m := m
  handleItem x := x
  poll w m a c := if w then (.inr (a + m), a + m, c) else (.inl m, a, c)

namespace Tally

/-- An unbounded mailbox, no timeout, no stream. -/
def plain : Environment tally := ⟨none, ⟨none, false⟩, .restartOnly, none⟩

/-- The actor as it is spawned. -/
def spawn (E : Environment tally) : Sys tally := E.init (0 : ℕ) (0 : ℕ)

theorem reachable {E : Environment tally} {s : Sys tally} (ls : List (Label tally))
    (h : E.system.run (spawn E) ls = some s) : E.Reachable (0 : ℕ) (0 : ℕ) s := ⟨ls, h⟩

end Tally

end Hannibal
