/-
Restarting.

`plan` says which hooks and tasks a sequence of payloads calls for under a
restart strategy, each with the number of the actor value it runs on; `script`
is what the trace has of them.

* `Scripted` — the script is the plan, up to what the phase still has to do;
  and so from every `A::default()` on;
* `Turned` — the loop's way out begins with the turn that ends it, and no other.

With the replay of the trace and the deletion of ignored payloads they give
`restart_law`.
-/
import Hannibal.Feeding
import Hannibal.Work
import Mathlib.Data.List.Induction

open scoped List

namespace Hannibal

variable {A : Actor}

/-! ### Plans -/

/-- A hook, the beginning or the end of a task; `n` is the number of the actor
value it runs on. -/
inductive Beat where
  | started (n : ℕ)
  | stopped (n : ℕ)
  | begun (i n : ℕ)
  | done (i : ℕ)
  deriving DecidableEq, Repr

def Beat.isHook : Beat → Bool
  | .started _ => true
  | .stopped _ => true
  | _ => false

namespace Event

def beat? : Event A → Option Beat
  | .started _ n _ => some (.started n)
  | .stopped _ n _ => some (.stopped n)
  | .begun i n => some (.begun i n)
  | .completed i _ => some (.done i)
  | .overran i => some (.done i)
  | _ => none

/-- What a turn of the loop got: a payload, or the end of the mailbox or of the
stream. -/
def turn? : Event A → Option (Option (Envelope A))
  | .taken e => some (some e)
  | .mailboxEnd => some none
  | .streamEnd => some none
  | _ => none

end Event

def script (t : List (Event A)) : List Beat := t.filterMap Event.beat?

def turns (t : List (Event A)) : List (Option (Envelope A)) := t.filterMap Event.turn?

@[simp] theorem script_append (t u : List (Event A)) : script (t ++ u) = script t ++ script u :=
  List.filterMap_append

@[simp] theorem turns_append (t u : List (Event A)) : turns (t ++ u) = turns t ++ turns u :=
  List.filterMap_append

theorem script_eq_nil {t : List (Event A)} (h : ∀ ev ∈ t, ev.source ≠ .loop) : script t = [] := by
  refine List.filterMap_eq_nil_iff.mpr fun ev hev => ?_
  cases ev <;> first | rfl | exact absurd rfl (h _ hev)

theorem turns_eq_nil {t : List (Event A)} (h : ∀ ev ∈ t, ev.source ≠ .loop) : turns t = [] := by
  refine List.filterMap_eq_nil_iff.mpr fun ev hev => ?_
  cases ev <;> first | rfl | exact absurd rfl (h _ hev)

/-- As long as no turn ended the loop, every turn took a payload. -/
theorem turns_eq_taken {t : List (Event A)} (h : ∀ x ∈ turns t, x ≠ none) :
    turns t = (taken t).map some := by
  have hid : ∀ l : List (Option (Envelope A)), (∀ x ∈ l, x ≠ none) →
      l = (l.filterMap id).map some := by
    intro l hl
    induction l with
    | nil => rfl
    | cons x l ih =>
      cases x with
      | none => exact absurd rfl (hl none (List.mem_cons_self ..))
      | some e => exact congrArg (some e :: ·) (ih fun y hy => hl y (List.mem_cons_of_mem _ hy))
  rw [hid _ h]
  congr 1
  rw [turns, List.filterMap_filterMap, taken]
  congr 1
  funext ev
  cases ev <;> rfl

theorem turns_of_idle {t : List (Event A)} (h : ∀ ev ∈ t, ev.working = false) : turns t = [] := by
  refine List.filterMap_eq_nil_iff.mpr fun ev hev => ?_
  have hw := h ev hev
  cases ev <;> first | rfl | cases hw

theorem Phase.not_looping_of_crashed {p : Phase A} (h : p.crashed = true) : p.looping = false := by
  cases p <;> first | rfl | cases h

/-- The number of the actor value behind a `Restart`. -/
def RestartStrategy.next (R : RestartStrategy) (n : ℕ) : ℕ :=
  match R with
  | .recreateFromDefault => n + 1
  | _ => n

/-- The turn is the last one. -/
def endsTurns (x : Option (Envelope A)) : Bool :=
  match x with
  | none => true
  | some e => match e.payload with
    | .stop => true
    | _ => false

def isRestart (x : Option (Envelope A)) : Bool :=
  match x with
  | none => false
  | some e => match e.payload with
    | .restart => true
    | _ => false

namespace RestartStrategy

variable (R : RestartStrategy)

/-- The number of the actor value behind a turn. -/
def after (n : ℕ) (x : Option (Envelope A)) : ℕ := if isRestart x then R.next n else n

/-- The hooks and tasks a turn calls for. -/
def beats (n : ℕ) (x : Option (Envelope A)) : List Beat :=
  match x with
  | none => [.stopped n]
  | some e =>
    match e.payload with
    | .task _ => [.begun e.id n, .done e.id]
    | .stop => [.stopped n]
    | .restart =>
      match R with
      | .nonRestartable => []
      | _ => [.stopped n, .started (R.next n)]

def plan (n : ℕ) : List (Option (Envelope A)) → List Beat
  | [] => []
  | x :: l => R.beats n x ++ plan (R.after n x) l

theorem plan_append (n : ℕ) (l m : List (Option (Envelope A))) :
    R.plan n (l ++ m) = R.plan n l ++ R.plan (l.foldl R.after n) m := by
  induction l generalizing n with
  | nil => rfl
  | cons x l ih => simp only [List.cons_append, plan, ih, List.append_assoc, List.foldl_cons]

theorem plan_singleton (n : ℕ) (x : Option (Envelope A)) : R.plan n [x] = R.beats n x :=
  List.append_nil _

/-- The last turn calls for `stopped`. -/
theorem beats_of_ends {x : Option (Envelope A)} (h : endsTurns x = true) (n : ℕ) :
    R.beats n x = [.stopped n] := by
  rcases x with _ | ⟨i, f | - | -⟩ <;> first | rfl | cases h

theorem isRestart_of_ends {x : Option (Envelope A)} (h : endsTurns x = true) :
    isRestart x = false := by
  rcases x with _ | ⟨i, f | - | -⟩ <;> first | rfl | cases h

/-- A turn that goes on is a task or a `Restart`. -/
theorem turn_cases {x : Option (Envelope A)} (h : endsTurns x = false) :
    ∃ e, x = some e ∧ ((∃ f, e.payload = .task f) ∨ e.payload = .restart) := by
  rcases x with _ | ⟨i, f | - | -⟩
  · cases h
  · exact ⟨_, rfl, .inl ⟨f, rfl⟩⟩
  · cases h
  · exact ⟨_, rfl, .inr rfl⟩

theorem next_eq (hR : R ≠ .recreateFromDefault) (n : ℕ) : R.next n = n := by
  cases R <;> first | rfl | exact absurd rfl hR

theorem foldl_after_eq (hR : R ≠ .recreateFromDefault) (n : ℕ) (l : List (Option (Envelope A))) :
    l.foldl R.after n = n := by
  induction l generalizing n with
  | nil => rfl
  | cons x l ih => rw [List.foldl_cons, after, next_eq R hR, ite_self, ih]

theorem foldl_after_recreate (n : ℕ) (l : List (Option (Envelope A))) :
    l.foldl recreateFromDefault.after n = n + l.countP isRestart := by
  induction l generalizing n with
  | nil => rfl
  | cons x l ih =>
    rw [List.foldl_cons, ih, List.countP_cons, after]
    by_cases hx : isRestart x = true
    · simp only [hx, if_true, next]
      omega
    · simp [hx]

/-- Under `RestartOnly` every `Restart` calls for `stopped` and `started`. -/
theorem hooks_plan_restartOnly (n : ℕ) {l : List (Option (Envelope A))}
    (hl : ∀ x ∈ l, endsTurns x = false) : (restartOnly.plan n l).filter Beat.isHook =
      (List.replicate (l.countP isRestart) [.stopped n, .started n]).flatten := by
  induction l with
  | nil => rfl
  | cons x l ih =>
    have hn : restartOnly.after n x = n := by simp [after, next]
    rw [plan, hn, List.filter_append, ih fun y hy => hl y (List.mem_cons_of_mem _ hy),
      List.countP_cons]
    obtain ⟨e, rfl, ⟨f, hf⟩ | hf⟩ := turn_cases (hl x (List.mem_cons_self ..))
    · simp [beats, isRestart, hf, Beat.isHook]
    · simp only [beats, isRestart, hf, next, if_true, List.replicate_succ, List.flatten_cons]
      rfl

/-- The last `started` of a plan that goes on is followed by tasks only. -/
theorem exists_last_started (n : ℕ) {l : List (Option (Envelope A))}
    (hl : ∀ x ∈ l, endsTurns x = false) : ∃ pre mid,
      .started n :: R.plan n l = pre ++ .started (l.foldl R.after n) :: mid ∧
        ∀ b ∈ mid, b.isHook = false := by
  induction l using List.reverseRecOn with
  | nil => exact ⟨[], [], rfl, by simp⟩
  | append_singleton l x ih =>
    obtain ⟨pre, mid, heq, hmid⟩ := ih fun y hy => hl y (List.mem_append_left _ hy)
    rw [plan_append, ← List.cons_append, heq, plan_singleton, List.foldl_append]
    obtain ⟨e, rfl, ⟨f, hf⟩ | hf⟩ := turn_cases (hl x (by simp))
    · refine ⟨pre, mid ++ [.begun e.id (l.foldl R.after n), .done e.id], ?_, ?_⟩
      · simp [beats, hf, after, isRestart]
      · simp only [List.mem_append, List.mem_cons, List.not_mem_nil, or_false]
        rintro b (hb | rfl | rfl)
        · exact hmid b hb
        · rfl
        · rfl
    · by_cases hR : R = .nonRestartable
      · subst hR
        exact ⟨pre, mid, by simp [beats, hf, after, next], hmid⟩
      · refine ⟨pre ++ .started (l.foldl R.after n) :: mid ++ [.stopped (l.foldl R.after n)], [],
          ?_, by simp⟩
        simp [beats, hf, after, isRestart]

end RestartStrategy

/-- The hooks and tasks the phase still has to get through. -/
def Phase.rest (R : RestartStrategy) (n : ℕ) : Phase A → List Beat
  | .starting => [.started n]
  | .task i _ => [.done i]
  | .refreshStopping _ => [.stopped n, .started (R.next n)]
  | .refreshStarting _ => [.started n]
  | .finishing => [.stopped n]
  | .stopping => [.stopped n]
  | _ => []

/-- The number of the actor value that the next turn finds. -/
def Phase.number (R : RestartStrategy) (n : ℕ) : Phase A → ℕ
  | .refreshStopping _ => R.next n
  | _ => n

namespace Sys

variable {E : Environment A} {s t : Sys A} {es : List (Event A)}

theorem afterLoop_rest (E : Environment A) (n : ℕ) :
    E.afterLoop.rest E.strategy n = [.stopped n] := by
  unfold Environment.afterLoop
  split <;> rfl

theorem afterLoop_number (E : Environment A) (n : ℕ) : E.afterLoop.number E.strategy n = n := by
  unfold Environment.afterLoop
  split <;> rfl

/-- What a payload calls for, by its kind. -/
theorem plan_task {R : RestartStrategy} {n : ℕ} {e : Envelope A} {f : TaskFn A}
    (hf : e.payload = .task f) : R.plan n [some e] = [.begun e.id n, .done e.id] := by
  simp [RestartStrategy.plan, RestartStrategy.beats, hf]

theorem plan_stop {R : RestartStrategy} {n : ℕ} {e : Envelope A} (hf : e.payload = .stop) :
    R.plan n [some e] = [.stopped n] := by
  simp [RestartStrategy.plan, RestartStrategy.beats, hf]

theorem plan_restart {R : RestartStrategy} {n : ℕ} {e : Envelope A} (hf : e.payload = .restart)
    (hR : R ≠ .nonRestartable) : R.plan n [some e] = [.stopped n, .started (R.next n)] := by
  simp [RestartStrategy.plan, RestartStrategy.beats, hf]

theorem plan_ignored {n : ℕ} {e : Envelope A} (hf : e.payload = .restart) :
    RestartStrategy.nonRestartable.plan n [some e] = [] := by
  simp [RestartStrategy.plan, RestartStrategy.beats, hf]

/-- A step gets on with what the phase has to do or with what a new turn calls
for. -/
theorem LoopStep.scripted (h : s.LoopStep E t es) :
    Pipeline.Passes (s.phase.rest E.strategy s.incarnation)
      (E.strategy.plan (s.phase.number E.strategy s.incarnation) (turns es)) (script es)
      (t.phase.rest E.strategy t.incarnation) s.phase.crashed t.phase.crashed := by
  have hflow : ∀ {p : Phase A} {o c : List Beat}, s.phase = p → p.crashed = false →
      p.rest E.strategy s.incarnation ++
          E.strategy.plan (p.number E.strategy s.incarnation) (turns es) = o ++ c →
      Pipeline.Passes (s.phase.rest E.strategy s.incarnation)
        (E.strategy.plan (s.phase.number E.strategy s.incarnation) (turns es)) o c
        s.phase.crashed t.phase.crashed := by
    rintro p o c rfl hc heq
    exact ⟨fun _ => ⟨heq ▸ List.prefix_append o c, fun _ => heq⟩, fun hn => by simp [hc] at hn⟩
  have hcrash : ∀ {p : Phase A} {i c : List Beat}, s.phase = p → p.crashed = false →
      t.phase.crashed = true →
      Pipeline.Passes (s.phase.rest E.strategy s.incarnation) i [] c s.phase.crashed
        t.phase.crashed := by
    rintro p i c rfl hc ht
    exact ⟨fun _ => ⟨List.nil_prefix, fun hn => by simp [ht] at hn⟩, fun hn => by simp [hc] at hn⟩
  cases h with
  | startOk w es a c u hp | startErr w es e a c hp =>
    cases hp with
    | first hp | refresh i hp => exact hflow hp rfl rfl
  | refreshStop w i hp hR =>
    refine hflow hp rfl ?_
    show [Beat.stopped _, Beat.started (E.strategy.next s.incarnation)] = _
    rw [E.strategy.next_eq hR]
    rfl
  | recreate w i hp hR =>
    refine hflow hp rfl ?_
    show [Beat.stopped _, Beat.started (E.strategy.next s.incarnation)] = _
    rw [hR]
    rfl
  | takeTask es e q f hr hq hf =>
    obtain ⟨hp, rfl | rfl⟩ := hr.events <;> exact hflow hp rfl (plan_task hf)
  | takeStop es e q hr hq hf =>
    obtain ⟨hp, rfl | rfl⟩ := hr.events <;>
      exact hflow hp rfl ((plan_stop hf).trans (afterLoop_rest E _).symm)
  | takeRestart e q hp hs hq hf hR => exact hflow hp rfl (plan_restart hf hR)
  | ignoreRestart e q hp hs hq hf hR =>
    refine hflow hp rfl ?_
    rw [hR]
    exact plan_ignored hf
  | restartPanic es e q hr =>
    -- the plan is broken off
    obtain ⟨hp, rfl | rfl⟩ := hr.events <;> exact hcrash hp rfl rfl
  | mailboxEnd es hr =>
    obtain ⟨hp, rfl | rfl⟩ := hr.events <;> exact hflow hp rfl (afterLoop_rest E _).symm
  | streamPending hp =>
    refine hflow hp rfl ?_
    rw [record_phase, hp]
    rfl
  | taskOverran i w sel fut a c hp =>
    refine hflow hp rfl ?_
    simp only [Sys.overrun, record_phase]
    split <;> rfl
  | crash o ho hp =>
    refine hcrash rfl ?_ ?_
    · cases hsp : s.phase <;> simp [suspended, hsp] at hp <;> rfl
    · unfold Sys.crash
      rcases ho with ⟨rfl, -⟩ | rfl <;> split <;> rfl
  | dropContext hd =>
    rw [dropContext_phase]
    obtain ⟨o, hp | hp⟩ := phase_of_dropsContext hd <;>
    · rw [hp]
      refine ⟨fun _ => ⟨List.nil_prefix, fun _ => rfl⟩, fun hn => ⟨?_, rfl, rfl⟩⟩
      cases o <;> first | rfl | cases hn
  | notify o hp | release o hp =>
    rw [hp]
    refine ⟨fun _ => ⟨List.nil_prefix, fun _ => rfl⟩, fun hn => ⟨?_, rfl, rfl⟩⟩
    cases o <;> first | rfl | cases hn
  | finishing w hp | stopping w hp | takeItem items x hp | streamEnd items hp
  | taskPending i w sel fut f a c hp | taskDone i w sel fut reply a c hp
  | itemPending x w fut f a c hp | itemDone x w fut r a c hp => exact hflow hp rfl rfl

/-- The number of the actor value changes at a `Restart` of the strategy that
recreates it. -/
theorem LoopStep.numbered (h : s.LoopStep E t es) (hc : t.phase.crashed = false) :
    (turns es).foldl E.strategy.after (s.phase.number E.strategy s.incarnation) =
      t.phase.number E.strategy t.incarnation := by
  have hsame : ∀ {p q : Phase A}, s.phase = p → p.number E.strategy s.incarnation = s.incarnation →
      turns es = [] → t.phase = q → q.number E.strategy t.incarnation = s.incarnation →
      (turns es).foldl E.strategy.after (s.phase.number E.strategy s.incarnation) =
        t.phase.number E.strategy t.incarnation := by
    rintro p q rfl hp hes rfl hq
    rw [hes, hq, hp, List.foldl_nil]
  cases h with
  | startOk w es a c u hp | startErr w es e a c hp =>
    cases hp with
    | first hp | refresh i hp => exact hsame hp rfl rfl rfl rfl
  | refreshStop w i hp hR =>
    rw [hp]
    exact E.strategy.next_eq hR _
  | recreate w i hp hR =>
    rw [hp, hR]
    rfl
  | takeTask es e q f hr hq hf =>
    obtain ⟨hp, rfl | rfl⟩ := hr.events <;> rw [hp] <;>
      simp [turns, List.filterMap_cons, Event.turn?, RestartStrategy.after, isRestart, hf,
        Phase.number]
  | takeStop es e q hr hq hf =>
    obtain ⟨hp, rfl | rfl⟩ := hr.events <;> rw [hp, record_phase, afterLoop_number] <;>
      simp [turns, List.filterMap_cons, Event.turn?, RestartStrategy.after, isRestart, hf,
        Phase.number]
  | takeRestart e q hp hs hq hf hR =>
    rw [hp]
    simp [turns, Event.turn?, RestartStrategy.after, isRestart, hf, Phase.number]
  | ignoreRestart e q hp hs hq hf hR =>
    rw [hp]
    simp [turns, List.filterMap_cons, Event.turn?, RestartStrategy.after, isRestart, hf,
      Phase.number, hR, RestartStrategy.next]
  | restartPanic => cases hc
  | mailboxEnd es hr =>
    obtain ⟨hp, rfl | rfl⟩ := hr.events <;> rw [hp, record_phase, afterLoop_number] <;> rfl
  | streamEnd items hp =>
    rw [hp]
    rfl
  | streamPending hp => exact hsame hp rfl rfl hp rfl
  | dropContext hd =>
    obtain ⟨o, hp | hp⟩ := phase_of_dropsContext hd <;> exact hsame hp rfl rfl hp rfl
  | taskOverran i w sel fut a c hp =>
    rw [hp]
    simp only [Sys.overrun, record_phase]
    split <;> rfl
  | crash o ho =>
    unfold Sys.crash at hc
    rcases ho with ⟨rfl, -⟩ | rfl <;> split at hc <;> cases hc
  | finishing w hp | stopping w hp | takeItem items x hp | taskPending i w sel fut f a c hp
  | taskDone i w sel fut reply a c hp | itemPending x w fut f a c hp | itemDone x w fut r a c hp
  | notify o hp | release o hp => exact hsame hp rfl rfl rfl rfl

/-- A crashed loop does not go on. -/
theorem LoopStep.crashed (h : s.LoopStep E t es) (hc : t.phase.crashed = false) :
    s.phase.crashed = false := by
  cases h.progress with
  | goes hs | ends hs =>
    cases hp : s.phase <;> first | rfl | simp [hp, Phase.looping] at hs
  | crashes ht hct => simp [hc] at hct
  | leaves hs ht hct => rw [← hct, hc]

/-- A point at which the actor value is new, and what happened behind it. -/
inductive Incarnates (t : List (Event A)) : ℕ → List (Event A) → Prop where
  | first : Incarnates t 0 t
  | next (pre : List (Event A)) (n : ℕ) (post : List (Event A))
      (ht : t = pre ++ .recreated n :: post) : Incarnates t n post

/-- From each such point on, the script is the plan up to what the phase still
has to do. -/
structure Scripted (E : Environment A) (s : Sys A) : Prop where
  flows : ∀ n post, Incarnates s.trace n post →
    Pipeline (.started n :: E.strategy.plan n (turns post)) (script post)
      (s.phase.rest E.strategy s.incarnation) s.phase.crashed
  number : s.phase.crashed = false → ∀ n post, Incarnates s.trace n post →
    (turns post).foldl E.strategy.after n = s.phase.number E.strategy s.incarnation

/-- A point of a longer history is an old one, or a new value was made since. -/
theorem Incarnates.append {t u post : List (Event A)} {n : ℕ} (h : Incarnates (t ++ u) n post) :
    (∃ post', Incarnates t n post' ∧ post = post' ++ u) ∨
      ∃ pre, u = pre ++ .recreated n :: post := by
  cases h with
  | first => exact .inl ⟨t, .first, rfl⟩
  | next pre n post ht =>
    rcases split_append ht with ⟨v, hv, rfl⟩ | ⟨v, hv, -⟩
    · exact .inl ⟨v, .next pre n v hv, rfl⟩
    · exact .inr ⟨v, hv⟩

theorem LoopStep.recreated_mem (h : s.LoopStep E t es) {pre post : List (Event A)} {n : ℕ}
    (he : es = pre ++ .recreated n :: post) :
    post = [] ∧ t.incarnation = n ∧ (∃ w m b, pre = [.stopped w m b]) ∧
      ∃ i, s.phase = .refreshStopping i ∧ t.phase = .refreshStarting i := by
  have hm : .recreated n ∈ es := by simp [he]
  cases h with
  | recreate w i hp hR =>
    -- the new value is what the step records last
    rcases pre with _ | ⟨x, _ | ⟨y, pre⟩⟩
    · simp at he
    · simp only [List.cons_append, List.nil_append, List.cons.injEq, Event.recreated.injEq] at he
      exact ⟨he.2.2.symm, he.2.1, ⟨_, _, _, congrArg (· :: []) he.1.symm⟩, i, hp, rfl⟩
    · simp at he
  | startOk w es a c u hp => cases hp <;> simp at hm
  | takeTask es e q f hr | takeStop es e q hr | restartPanic es e q hr | mailboxEnd es hr =>
    obtain ⟨-, rfl | rfl⟩ := hr.events <;> simp at hm
  | _ => simp at hm

theorem Scripted.step (hs : s.Scripted E) (h : E.Step s t es) : t.Scripted E := by
  rcases h.outside with ⟨ho, -⟩ | ⟨-, hl⟩
  · have hsc := script_eq_nil ho.source
    have htu := turns_eq_nil ho.source
    have hnew : ∀ n post, Incarnates t.trace n post →
        ∃ post', Incarnates s.trace n post' ∧ post = post' ++ es := by
      intro n post hi
      rw [ho.trace] at hi
      rcases hi.append with hi | ⟨pre, rfl⟩
      · exact hi
      · exact absurd rfl (ho.source (.recreated n) (by simp))
    constructor
    · intro n post hi
      obtain ⟨post', hi', rfl⟩ := hnew n post hi
      rw [turns_append, script_append, hsc, htu, List.append_nil, List.append_nil, ho.phase,
        ho.incarnation]
      exact hs.flows n post' hi'
    · intro hc n post hi
      obtain ⟨post', hi', rfl⟩ := hnew n post hi
      rw [turns_append, htu, List.append_nil, ho.phase, ho.incarnation]
      exact hs.number (ho.phase ▸ hc) n post' hi'
  · constructor
    · intro n post hi
      rw [hl.trace] at hi
      rcases hi.append with ⟨post', hi', rfl⟩ | ⟨pre, he⟩
      · rw [turns_append, script_append, RestartStrategy.plan_append, ← List.cons_append]
        cases hc : s.phase.crashed with
        | true =>
          -- no turn any more
          have htu : turns es = [] := turns_of_idle (hl.idle (Phase.not_looping_of_crashed hc))
          have hp := hl.scripted
          rw [htu] at hp ⊢
          exact Pipeline.step (hs.flows n post' hi') hp
        | false =>
          rw [hs.number hc n post' hi']
          exact Pipeline.step (hs.flows n post' hi') hl.scripted
      · obtain ⟨rfl, rfl, -, i, -, hp⟩ := hl.recreated_mem he
        rw [hp]
        exact ⟨List.nil_prefix, fun _ => rfl⟩
    · intro hc n post hi
      rw [hl.trace] at hi
      rcases hi.append with ⟨post', hi', rfl⟩ | ⟨pre, he⟩
      · rw [turns_append, List.foldl_append, hs.number (hl.crashed hc) n post' hi']
        exact hl.numbered hc
      · obtain ⟨rfl, rfl, -, i, -, hp⟩ := hl.recreated_mem he
        rw [hp]
        rfl

/-! ### The turn that ends the loop -/

end Sys

/-- The loop ended and every hook so far went well. -/
def Phase.closing : Phase A → Bool
  | .finishing => true
  | .stopping => true
  | .leaving (.ok _) => true
  | .releasing (.ok _) => true
  | .ended (.ok _) => true
  | _ => false

theorem Phase.closing_of_exit {p : Phase A} {a : A.State} (h : p.exit? = some (.ok a)) :
    p.closing = true ∧ p.crashed = false ∧ ∀ (R : RestartStrategy) n, p.rest R n = [] := by
  cases p <;> cases h <;> exact ⟨rfl, rfl, fun _ _ => rfl⟩

theorem Phase.number_of_exit {p : Phase A} {o : Exit A} (h : p.exit? = some o)
    (R : RestartStrategy) (n : ℕ) : p.number R n = n := by
  cases p <;> first | rfl | cases h

theorem Phase.not_closing_of_exit {p : Phase A} {e : LoopError A} (h : p.exit? = some (.err e)) :
    p.closing = false ∧ p.crashed = false ∧ ∀ (R : RestartStrategy) n, p.rest R n = [] := by
  cases p <;> cases h <;> exact ⟨rfl, rfl, fun _ _ => rfl⟩

namespace Sys

variable {E : Environment A} {s t : Sys A} {es : List (Event A)}

theorem afterLoop_closing (E : Environment A) : E.afterLoop.closing = true := by
  unfold Environment.afterLoop
  split <;> rfl

/-- What a step has to do with the last turn. -/
inductive Turns (s t : Sys A) (es : List (Event A)) : Prop where
  | goes (ho : t.phase.closing = s.phase.closing) (he : ∀ x ∈ turns es, endsTurns x = false)
      (hs : s.phase.closing = true → turns es = [])
  | ends (hs : s.phase.closing = false) (hc : s.phase.crashed = false) (ht : t.phase.closing = true)
      (x : Option (Envelope A)) (he : turns es = [x]) (hx : endsTurns x = true)
  | crashes (ht : t.phase.closing = false) (hc : t.phase.crashed = true)

theorem LoopStep.turns (h : s.LoopStep E t es) : s.Turns t es := by
  have hgo : ∀ {p q : Phase A}, s.phase = p → t.phase = q → q.closing = p.closing →
      Hannibal.turns es = [] → s.Turns t es := by
    rintro p q rfl rfl ho he
    exact .goes ho (by simp [he]) fun _ => he
  cases h with
  | startOk w es a c u hp | startErr w es e a c hp =>
    cases hp with
    | first hp | refresh i hp => exact hgo hp rfl rfl rfl
  | takeTask es e q f hr hq hf =>
    obtain ⟨hp, rfl | rfl⟩ := hr.events <;>
      exact .goes (by rw [hp]; rfl) (by simp [Hannibal.turns, Event.turn?, endsTurns, hf])
        (by simp [hp, Phase.closing])
  | takeStop es e q hr hq hf =>
    obtain ⟨hp, rfl | rfl⟩ := hr.events <;>
      exact .ends (by rw [hp]; rfl) (by rw [hp]; rfl) (afterLoop_closing E) (some e) rfl
        (by simp [endsTurns, hf])
  | mailboxEnd es hr =>
    obtain ⟨hp, rfl | rfl⟩ := hr.events <;>
      exact .ends (by rw [hp]; rfl) (by rw [hp]; rfl) (afterLoop_closing E) none rfl rfl
  | streamEnd items hp => exact .ends (by rw [hp]; rfl) (by rw [hp]; rfl) rfl none rfl rfl
  | takeRestart e q hp hs hq hf | ignoreRestart e q hp hs hq hf =>
    exact .goes (by rw [hp]; rfl) (by simp [Hannibal.turns, Event.turn?, endsTurns, hf])
      (by simp [hp, Phase.closing])
  | restartPanic => exact .crashes rfl rfl
  | streamPending hp => exact hgo hp hp rfl rfl
  | taskOverran i w sel fut a c hp =>
    refine hgo hp rfl ?_ rfl
    simp only [Sys.overrun, record_phase]
    split <;> rfl
  | crash o ho =>
    refine .crashes ?_ ?_ <;> unfold Sys.crash <;> rcases ho with ⟨rfl, -⟩ | rfl <;> split <;> rfl
  | dropContext => exact hgo rfl rfl rfl rfl
  | notify o hp | release o hp => exact hgo hp rfl (by cases o <;> rfl) rfl
  | refreshStop w i hp | recreate w i hp | finishing w hp | stopping w hp | takeItem items x hp
  | taskPending i w sel fut f a c hp | taskDone i w sel fut reply a c hp
  | itemPending x w fut f a c hp | itemDone x w fut r a c hp => exact hgo hp rfl rfl rfl

/-- Up to the way out no turn ended the loop; the way out begins with one. -/
structure Turned (s : Sys A) : Prop where
  going : s.phase.closing = false → s.phase.crashed = false →
    ∀ x ∈ Hannibal.turns s.trace, endsTurns x = false
  closed : s.phase.closing = true → ∃ l x, Hannibal.turns s.trace = l ++ [x] ∧ endsTurns x = true ∧
    ∀ y ∈ l, endsTurns y = false

theorem Turned.step (hs : s.Turned) (h : E.Step s t es) : t.Turned := by
  rcases h.outside with ⟨ho, -⟩ | ⟨-, hl⟩
  · have htr : Hannibal.turns t.trace = Hannibal.turns s.trace := by
      rw [ho.trace, turns_append, turns_eq_nil ho.source, List.append_nil]
    constructor <;> rw [htr, ho.phase]
    · exact hs.going
    · exact hs.closed
  · have htr := congrArg Hannibal.turns hl.trace
    rw [turns_append] at htr
    cases hl.turns with
    | goes ho he hnil =>
      constructor <;> rw [htr, ho]
      · intro hn hc x hx
        exact (List.mem_append.mp hx).elim (hs.going hn (hl.crashed hc) x) (he x)
      · intro hp
        rw [hnil hp, List.append_nil]
        exact hs.closed hp
    | ends hn hc ht x he hx =>
      refine ⟨fun h => by simp [ht] at h, fun _ => ⟨_, x, ?_, hx, hs.going hn hc⟩⟩
      rw [htr, he]
    | crashes ht hc => exact ⟨fun _ h => by simp [hc] at h, fun h => by simp [ht] at h⟩

/-! ### New actor values -/

/-- A step makes no new actor value, or one with the next number. -/
theorem LoopStep.incarnation (h : s.LoopStep E t es) :
    (t.incarnation = s.incarnation ∧ ∀ n, .recreated n ∉ es) ∨
      E.strategy = .recreateFromDefault ∧ ∃ pre, es = pre ++ [.recreated t.incarnation] := by
  cases h with
  | recreate w i hp hR => exact .inr ⟨hR, [_], rfl⟩
  | startOk w es a c u hp => cases hp <;> exact .inl ⟨rfl, by simp⟩
  | takeTask es e q f hr | takeStop es e q hr | restartPanic es e q hr | mailboxEnd es hr =>
    obtain ⟨-, rfl | rfl⟩ := hr.events <;> exact .inl ⟨rfl, by simp⟩
  | crash o ho =>
    unfold Sys.crash
    split <;> exact .inl ⟨rfl, by simp⟩
  | _ => exact .inl ⟨rfl, by simp⟩

/-- The value made last has the number of the state. -/
structure Renewed (E : Environment A) (s : Sys A) : Prop where
  strategy : ∀ n, .recreated n ∈ s.trace → E.strategy = .recreateFromDefault
  last : ∀ pre n post, s.trace = pre ++ .recreated n :: post → (∀ m, .recreated m ∉ post) →
    n = s.incarnation
  first : s.incarnation = 0 ∨ ∃ n, .recreated n ∈ s.trace

/-- Nothing was renewed in `es`. -/
theorem Renewed.frame (hs : s.Renewed E) (ht : t.trace = s.trace ++ es)
    (hi : t.incarnation = s.incarnation) (he : ∀ n, .recreated n ∉ es) : t.Renewed E := by
  have hmem : ∀ n, .recreated n ∈ t.trace ↔ .recreated n ∈ s.trace := by
    intro n
    rw [ht, List.mem_append, or_iff_left (he n)]
  refine ⟨fun n hn => hs.strategy n ((hmem n).mp hn), fun pre n post hp hpost => ?_, ?_⟩
  · rw [hi]
    rcases split_append (ht.symm.trans hp) with ⟨v, hv, rfl⟩ | ⟨v, hv, -⟩
    · exact hs.last pre n v hv fun m hm => hpost m (List.mem_append_left _ hm)
    · exact absurd (show .recreated n ∈ es by simp [hv]) (he n)
  · rw [hi]
    exact hs.first.imp_right fun ⟨n, hn⟩ => ⟨n, (hmem n).mpr hn⟩

theorem Renewed.step (hs : s.Renewed E) (h : E.Step s t es) : t.Renewed E := by
  rcases h.outside with ⟨ho, -⟩ | ⟨-, hl⟩
  · exact hs.frame ho.trace ho.incarnation fun n hn => ho.source _ hn rfl
  · rcases hl.incarnation with ⟨hi, he⟩ | ⟨hR, pre', rfl⟩
    · exact hs.frame hl.trace hi he
    · have ht : t.trace = (s.trace ++ pre') ++ [.recreated t.incarnation] := by
        rw [hl.trace, List.append_assoc]
      refine ⟨fun _ _ => hR, fun pre n post hp hpost => ?_, .inr ⟨t.incarnation, by simp [ht]⟩⟩
      rcases split_append (ht.symm.trans hp) with ⟨v, -, rfl⟩ | ⟨v, hv, -⟩
      · exact absurd (List.mem_append_right _ (List.mem_singleton_self _)) (hpost t.incarnation)
      · rcases v with _ | ⟨y, v⟩ <;> simp at hv
        exact hv.1.symm

/-- Where a new value was made, no handler was in progress. -/
def Fresh (E : Environment A) (a : A.State) (c : A.Ctx) (s : Sys A) : Prop :=
  ∀ pre n post, s.trace = pre ++ .recreated n :: post → (replay E ⟨a, c, none⟩ pre).fut = none

theorem Fresh.step {a : A.State} {c : A.Ctx} (hs : s.Fresh E a c)
    (hk : s.HasCore (replay E ⟨a, c, none⟩ s.trace)) (h : E.Step s t es) : t.Fresh E a c := by
  intro pre n post hp
  rcases h.outside with ⟨ho, -⟩ | ⟨-, hl⟩
  · rcases split_append (ho.trace.symm.trans hp) with ⟨v, hv, -⟩ | ⟨v, hv, -⟩
    · exact hs pre n v hv
    · exact absurd rfl (ho.source (.recreated n) (by simp [hv]))
  · rcases split_append (hl.trace.symm.trans hp) with ⟨v, hv, -⟩ | ⟨v, hv, rfl⟩
    · exact hs pre n v hv
    · obtain ⟨-, -, ⟨w, m, b, rfl⟩, i, hsp, -⟩ := hl.recreated_mem hv
      rw [replay_append]
      exact (hk.fut (by rw [hsp]; rfl)).trans (by rw [hsp]; rfl)

/-! ### A failing start -/

theorem LoopStep.exit_hook (h : s.LoopStep E t es) {e : A.Error}
    (ht : t.phase.exit? = some (.err (.hook e))) :
    (∃ w, es = [.started w s.incarnation false] ∧ (A.started w s.actor s.ctx).1 = .error e) ∨
      s.phase.exit? = some (.err (.hook e)) ∧ ∀ ev ∈ es, ¬ ev.acts := by
  cases h with
  | startErr w es e' a c hp h =>
    cases ht
    exact .inl ⟨w, rfl, by rw [h]⟩
  | notify o hp | release o hp =>
    refine .inr ⟨?_, by simp [Event.acts]⟩
    rw [hp]
    exact ht
  | dropContext => exact .inr ⟨ht, by simp⟩
  | takeStop | mailboxEnd =>
    simp only [record_phase, Environment.afterLoop] at ht
    split at ht <;> cases ht
  | taskOverran =>
    simp only [Sys.overrun, record_phase] at ht
    split at ht <;> cases ht
  | crash o ho =>
    unfold Sys.crash at ht
    rcases ho with ⟨rfl, -⟩ | rfl <;> split at ht <;> cases ht
  | streamPending hp =>
    rw [record_phase, hp] at ht
    cases ht
  | _ => cases ht

/-- An error of a hook that the loop returns is that of a `started`, and nothing
more was done behind it. -/
def Refused (E : Environment A) (a : A.State) (c : A.Ctx) (s : Sys A) : Prop :=
  ∀ e, s.phase.exit? = some (.err (.hook e)) → ∃ pre w n post,
    s.trace = pre ++ .started w n false :: post ∧ (∀ ev ∈ post, ¬ ev.acts) ∧
      (A.started w (replay E ⟨a, c, none⟩ pre).actor (replay E ⟨a, c, none⟩ pre).ctx).1 = .error e

theorem Refused.step {a : A.State} {c : A.Ctx} (hs : s.Refused E a c)
    (hk : s.HasCore (replay E ⟨a, c, none⟩ s.trace)) (h : E.Step s t es) : t.Refused E a c := by
  intro e he
  have hold : s.phase.exit? = some (.err (.hook e)) → (∀ ev ∈ es, ¬ ev.acts) →
      t.trace = s.trace ++ es → ∃ pre w n post,
        t.trace = pre ++ .started w n false :: post ∧ (∀ ev ∈ post, ¬ ev.acts) ∧
          (A.started w (replay E ⟨a, c, none⟩ pre).actor
            (replay E ⟨a, c, none⟩ pre).ctx).1 = .error e := by
    intro hx hes ht
    obtain ⟨pre, w, n, post, hst, hpost, hA⟩ := hs e hx
    refine ⟨pre, w, n, post ++ es, ?_, fun ev hev => ?_, hA⟩
    · rw [ht, hst, List.append_assoc]
      rfl
    · exact (List.mem_append.mp hev).elim (hpost ev) (hes ev)
  rcases h.outside with ⟨ho, -⟩ | ⟨-, hl⟩
  · exact hold (ho.phase ▸ he) (fun ev hev ha => not_acts_of_outside ho ha hev) ho.trace
  · rcases hl.exit_hook he with ⟨w, rfl, hA⟩ | ⟨hx, hes⟩
    · refine ⟨s.trace, w, s.incarnation, [], hl.trace, by simp, ?_⟩
      rw [hk.actor, hk.ctx, hA]
    · exact hold hx hes hl.trace

end Sys

namespace Environment.Reachable

variable {E : Environment A} {a : A.State} {c : A.Ctx} {s : Sys A}

theorem scripted (h : E.Reachable a c s) : s.Scripted E := by
  refine reachable_induction ⟨fun n post hi => ?_, fun _ n post hi => ?_⟩
    (fun _ _ _ _ _ hs hst => hs.step hst) h
  · cases hi with
    | first => exact ⟨List.nil_prefix, fun _ => rfl⟩
    | next pre n post ht => simp [Environment.init] at ht
  · cases hi with
    | first => rfl
    | next pre n post ht => simp [Environment.init] at ht

theorem turned (h : E.Reachable a c s) : s.Turned :=
  reachable_induction ⟨fun _ _ _ => nofun, nofun⟩ (fun _ _ _ _ _ hs hst => hs.step hst) h

theorem renewed (h : E.Reachable a c s) : s.Renewed E := by
  refine reachable_induction ⟨nofun, fun pre n post hp => ?_, .inl rfl⟩
    (fun _ _ _ _ _ hs hst => hs.step hst) h
  simp [init] at hp

theorem fresh (h : E.Reachable a c s) : s.Fresh E a c := by
  refine reachable_induction (P := Sys.Fresh E a c) (fun pre n post hp => ?_)
    (fun _ _ _ hr _ hs hst => hs.step hr.replayed hst) h
  simp [init] at hp

theorem refused (h : E.Reachable a c s) : s.Refused E a c :=
  reachable_induction (P := Sys.Refused E a c) (fun e he => by cases he)
    (fun _ _ _ hr _ hs hst => hs.step hr.replayed hst) h

end Environment.Reachable

/-! ### The law -/

/-- The number of `Restart`s the loop took. -/
def restarts (t : List (Event A)) : ℕ := (turns t).countP isRestart

/-- What restarting does to an actor. -/
structure RestartLaw (E : Environment A) (a : A.State) (c : A.Ctx) (s : Sys A) : Prop where
  /-- Hooks and tasks run in the order their payloads have in the queue. -/
  in_order : script s.trace <+: .started 0 :: E.strategy.plan 0 (turns s.trace)
  /-- In a run that ends well all of them ran; the end of the loop calls for the
  last `stopped`. -/
  complete : ∀ b, s.phase.exit? = some (.ok b) → ∃ l x, turns s.trace = l ++ [x] ∧
    endsTurns x = true ∧ (∀ y ∈ l, endsTurns y = false) ∧
      script s.trace =
        .started 0 :: E.strategy.plan 0 l ++ [.stopped (l.foldl E.strategy.after 0)]
  /-- The actor that is returned is what they make of the first one. -/
  returned : ∀ b, s.phase.exit? = some (.ok b) → (replay E ⟨a, c, none⟩ s.trace).actor = b
  /-- `RestartOnly`: `started`, then `stopped` and `started` for each `Restart`,
  then `stopped`, all on the one actor value. -/
  restart_only : E.strategy = .restartOnly → (∀ n, .recreated n ∉ s.trace) ∧
    ∀ b, s.phase.exit? = some (.ok b) → (script s.trace).filter Beat.isHook =
      .started 0 :: (List.replicate (restarts s.trace) [.stopped 0, .started 0]).flatten ++
        [.stopped 0]
  /-- `RecreateFromDefault`: what is returned depends on `A::default()`, on the
  context at the last `Restart` and on what ran since, that is `started`, the
  tasks taken since and `stopped`. -/
  recreate : E.strategy = .recreateFromDefault → 0 < restarts s.trace →
    ∀ b, s.phase.exit? = some (.ok b) → ∃ pre n post, s.trace = pre ++ .recreated n :: post ∧
      n = restarts s.trace ∧ restarts post = 0 ∧ (∀ m, .recreated m ∉ post) ∧
      script post = .started n :: E.strategy.plan n (turns post) ∧
      b = (replay E ⟨A.default, (replay E ⟨a, c, none⟩ pre).ctx, none⟩ post).actor
  /-- `NonRestartable`: the run is one of the accepted sequence of payloads, and a
  sequence allows the same hooks, handlers and results without its `Restart`s. -/
  deletion : E.strategy = .nonRestartable →
    Behaves E a c (accepted s.trace) (s.trace.filter (Event.kept .nonRestartable)) s.phase.exit? ∧
      ∀ p t o, Behaves E a c (p.filter (Envelope.live .nonRestartable)) t o ↔ Behaves E a c p t o
  /-- A failing `started` is the last that runs, and its error is returned; in a
  refresh, `stopped` ran exactly once since the old actor value was started. -/
  refresh_failure : ∀ e, s.phase.exit? = some (.err (.hook e)) →
    (∃ pre w n post, s.trace = pre ++ .started w n false :: post ∧ (∀ ev ∈ post, ¬ ev.acts) ∧
      (A.started w (replay E ⟨a, c, none⟩ pre).actor (replay E ⟨a, c, none⟩ pre).ctx).1 =
        .error e) ∧
    (taken s.trace ≠ [] → ∃ pre n mid, script s.trace =
      pre ++ .started n :: mid ++ [.stopped n, .started (E.strategy.next n)] ∧
        ∀ b ∈ mid, b.isHook = false)

/-- **Restart law** of `create_loop`. -/
theorem restart_law {E : Environment A} {a : A.State} {c : A.Ctx} {s : Sys A}
    (hs : E.stream = none) (h : E.Reachable a c s) : RestartLaw E a c s := by
  have hall := h.scripted.flows 0 s.trace .first
  have hexit : s.phase.crashed = false → (∀ R n, s.phase.rest R n = []) →
      ∀ n post, Sys.Incarnates s.trace n post →
        script post = .started n :: E.strategy.plan n (turns post) := by
    intro hc hr n post hi
    have := (h.scripted.flows n post hi).exact hc
    rwa [hr, List.append_nil, eq_comm] at this
  have hcomplete : ∀ b, s.phase.exit? = some (.ok b) → ∃ l x, turns s.trace = l ++ [x] ∧
      endsTurns x = true ∧ (∀ y ∈ l, endsTurns y = false) ∧ script s.trace =
        .started 0 :: E.strategy.plan 0 l ++ [.stopped (l.foldl E.strategy.after 0)] := by
    intro b hb
    obtain ⟨ho, hc, hr⟩ := Phase.closing_of_exit hb
    obtain ⟨l, x, hlx, hx, hl⟩ := h.turned.closed ho
    refine ⟨l, x, hlx, hx, hl, ?_⟩
    rw [hexit hc hr 0 _ .first, hlx, RestartStrategy.plan_append, RestartStrategy.plan_singleton,
      RestartStrategy.beats_of_ends _ hx]
    rfl
  refine ⟨hall.order, hcomplete, fun b hb => h.replayed.actor.trans (h.returns b hb),
    fun hR => ⟨fun n hn => ?_, fun b hb => ?_⟩, fun hR hpos b hb => ?_, fun hR => ?_,
    fun e he => ⟨h.refused e he, fun htk => ?_⟩⟩
  · have := h.renewed.strategy n hn
    rw [hR] at this
    cases this
  · obtain ⟨l, x, hlx, hx, hl, hsc⟩ := hcomplete b hb
    have hr : restarts s.trace = l.countP isRestart := by
      rw [restarts, hlx, List.countP_append, List.countP_singleton,
        RestartStrategy.isRestart_of_ends hx]
      rfl
    have hn : l.foldl E.strategy.after 0 = 0 := RestartStrategy.foldl_after_eq _ (by simp [hR]) _ _
    rw [hsc, hn, hR, hr, List.filter_append, List.filter_cons_of_pos rfl,
      RestartStrategy.hooks_plan_restartOnly 0 hl]
    rfl
  · obtain ⟨-, hc, hrest⟩ := Phase.closing_of_exit hb
    have hnum : ∀ n post, Sys.Incarnates s.trace n post → n + restarts post = s.incarnation := by
      intro n post hi
      have := h.scripted.number hc n post hi
      rw [hR, RestartStrategy.foldl_after_recreate] at this
      exact this.trans (Phase.number_of_exit hb _ _)
    have hall := hnum 0 s.trace .first
    -- so there was a `Restart`, and a last one
    obtain ⟨n, hn⟩ := h.renewed.first.resolve_left (by omega)
    obtain ⟨pre, ev, post, ht, ⟨n, rfl⟩, hpost⟩ :=
      exists_last_mem (p := fun ev => ∃ n, ev = Event.recreated n) ⟨_, hn, n, rfl⟩
    have hlast : n = s.incarnation :=
      h.renewed.last pre n post ht fun m hm => hpost _ hm ⟨m, rfl⟩
    have hi : Sys.Incarnates s.trace n post := .next pre n post ht
    have hnp := hnum n post hi
    refine ⟨pre, n, post, ht, by omega, by omega, fun m hm => hpost _ hm ⟨m, rfl⟩,
      hexit hc hrest n post hi, ?_⟩
    have hcore := (h.replay_from ht).actor
    have hk : (replay E ⟨a, c, none⟩ pre).feed E (.recreated n) =
        ⟨A.default, (replay E ⟨a, c, none⟩ pre).ctx, none⟩ :=
      congrArg (Core.mk _ _) (h.fresh pre n post ht)
    rw [replay, List.foldl_cons, hk] at hcore
    exact (h.returns b hb).symm.trans hcore.symm
  · have hb := h.behaves hs
    refine ⟨by rwa [hR] at hb, fun p t o => ?_⟩
    rw [← hR]
    exact behaves_filter_iff hs
  · obtain ⟨pre, w, n, post, ht, -, -⟩ := h.refused e he
    have hm : .started w n false ∈ s.trace := by simp [ht]
    obtain ⟨ho, hc, hrest⟩ := Phase.not_closing_of_exit he
    have hgo := h.turned.going ho hc
    obtain ⟨hR, e', hlast, hf⟩ :=
      (h.startFailure.failed w n hm).resolve_left fun hn => htk hn.1
    obtain ⟨l, hl⟩ := List.getLast?_eq_some_iff.mp hlast
    have hsome : ∀ x ∈ turns s.trace, x ≠ none := by
      rintro x hx rfl
      cases hgo none hx
    have hturns : turns s.trace = l.map some ++ [some e'] := by
      rw [turns_eq_taken hsome, hl, List.map_append]
      rfl
    have hl : ∀ x ∈ l.map some, endsTurns x = false :=
      fun x hx => hgo x (by rw [hturns]; exact List.mem_append_left _ hx)
    obtain ⟨pre', mid, heq, hmid⟩ := E.strategy.exists_last_started 0 hl
    refine ⟨pre', (l.map some).foldl E.strategy.after 0, mid, ?_, hmid⟩
    rw [hexit hc hrest 0 _ .first, hturns, RestartStrategy.plan_append, ← List.cons_append, heq,
      Sys.plan_restart hf hR]

/-- One `restart`, then a `stop`. -/
theorem restart_law_of_restart_stop :
    ∃ s, Tally.plain.system.run (Tally.spawn Tally.plain)
        [.op (.begin .restart 0), .op (.push 0), .op (.begin .stop 0), .op (.push 1),
          .loop (.hook true), .loop .recv, .loop (.hook true), .loop (.hook true), .loop .recv,
          .loop (.hook true)] = some s ∧
      script s.trace = [.started 0, .stopped 0, .started 0, .stopped 0] ∧
      RestartLaw Tally.plain (0 : ℕ) (0 : ℕ) s :=
  ⟨_, rfl, rfl, restart_law rfl (Tally.reachable
    [.op (.begin .restart 0), .op (.push 0), .op (.begin .stop 0), .op (.push 1),
      .loop (.hook true), .loop .recv, .loop (.hook true), .loop (.hook true), .loop .recv,
      .loop (.hook true)] rfl)⟩

end Hannibal
