/-
The loop of an actor on a stream.

A turn of the loop chooses a task of the mailbox or an item of the stream, and
handles what it chose before the next turn.

* `Chosen` — what was chosen is what was handled and the one in progress;
* `Drawn` — the items come from the stream one after the other, none is skipped;
* `WrapsUp` — on the way out `finished`, `stopped` and the notification happen
  once each, in this order and behind the last handler.

Together they give `stream_contract`.
-/
import Hannibal.Completion
import Hannibal.Work

open scoped List

namespace Hannibal

variable {A : Actor}

namespace Event

/-- What a turn of the loop begins to handle: a task or an item. -/
def chosen? : Event A → Option (ℕ ⊕ A.Item)
  | .begun i _ => some (.inl i)
  | .itemTaken x => some (.inr x)
  | _ => none

def handled? : Event A → Option (ℕ ⊕ A.Item)
  | .completed i _ => some (.inl i)
  | .itemHandled x => some (.inr x)
  | _ => none

def itemTaken? : Event A → Option A.Item
  | .itemTaken x => some x
  | _ => none

def itemHandled? : Event A → Option A.Item
  | .itemHandled x => some x
  | _ => none

/-- `started` returned an error. -/
def startFails : Event A → Bool
  | .started _ _ ok => !ok
  | _ => false

/-- The loop polled the stream. -/
def pollsStream : Event A → Bool
  | .itemTaken _ => true
  | .streamPending => true
  | .streamEnd => true
  | _ => false

end Event

def chosen (t : List (Event A)) : List (ℕ ⊕ A.Item) := t.filterMap Event.chosen?

def handled (t : List (Event A)) : List (ℕ ⊕ A.Item) := t.filterMap Event.handled?

/-- The items in the order in which the loop took them from the stream. -/
def itemsTaken (t : List (Event A)) : List A.Item := t.filterMap Event.itemTaken?

/-- The items in the order in which the loop was done with them. -/
def itemsHandled (t : List (Event A)) : List A.Item := t.filterMap Event.itemHandled?

@[simp] theorem chosen_append (t u : List (Event A)) : chosen (t ++ u) = chosen t ++ chosen u :=
  List.filterMap_append

@[simp] theorem handled_append (t u : List (Event A)) :
    handled (t ++ u) = handled t ++ handled u := List.filterMap_append

@[simp] theorem itemsTaken_append (t u : List (Event A)) :
    itemsTaken (t ++ u) = itemsTaken t ++ itemsTaken u := List.filterMap_append

theorem chosen_tasks (t : List (Event A)) : (chosen t).filterMap Sum.getLeft? = begun t := by
  rw [chosen, List.filterMap_filterMap]
  congr 1
  funext ev
  cases ev <;> rfl

theorem chosen_items (t : List (Event A)) : (chosen t).filterMap Sum.getRight? = itemsTaken t := by
  rw [chosen, List.filterMap_filterMap]
  congr 1
  funext ev
  cases ev <;> rfl

theorem handled_tasks (t : List (Event A)) :
    (handled t).filterMap Sum.getLeft? = completed t := by
  rw [handled, List.filterMap_filterMap]
  congr 1
  funext ev
  cases ev <;> rfl

theorem handled_items (t : List (Event A)) :
    (handled t).filterMap Sum.getRight? = itemsHandled t := by
  rw [handled, List.filterMap_filterMap]
  congr 1
  funext ev
  cases ev <;> rfl

/-- The task or the item the loop is handling. -/
def Phase.handling : Phase A → List (ℕ ⊕ A.Item)
  | .task i _ => [.inl i]
  | .item x _ => [.inr x]
  | _ => []

/-- What happens to a stream actor on the way out. -/
inductive Mark where
  | finished
  | stopped
  | notified
  deriving DecidableEq, Repr

def Event.mark? : Event A → Option Mark
  | .finished _ _ => some .finished
  | .stopped _ _ _ => some .stopped
  | .notified => some .notified
  | _ => none

def marks (t : List (Event A)) : List Mark := t.filterMap Event.mark?

@[simp] theorem marks_append (t u : List (Event A)) : marks (t ++ u) = marks t ++ marks u :=
  List.filterMap_append

theorem mark_ne_nil {t : List (Event A)} {ev : Event A} (h : ev ∈ t) (hm : ev.mark? ≠ none) :
    marks t ≠ [] := by
  obtain ⟨m, hm⟩ := Option.ne_none_iff_exists'.mp hm
  exact List.ne_nil_of_mem (List.mem_filterMap.mpr ⟨ev, h, hm⟩)

/-- How far out the phase is. -/
def Phase.marks : Phase A → List Mark
  | .stopping => [.finished]
  | .leaving (.ok _) => [.finished, .stopped]
  | .releasing (.ok _) => [.finished, .stopped, .notified]
  | .ended (.ok _) => [.finished, .stopped, .notified]
  | .releasing _ => [.notified]
  | .ended _ => [.notified]
  | _ => []

/-- The loop is between a `Restart` and its end. -/
def Phase.refreshing : Phase A → Bool
  | .refreshStopping _ => true
  | .refreshStarting _ => true
  | _ => false

theorem Phase.handling_of_not_looping {p : Phase A} (h : p.looping = false) : p.handling = [] := by
  cases p <;> first | rfl | cases h

/-- Without a timeout nothing overruns. -/
theorem timeoutFut_none {sel : Select} {w : A.World} {fut : TaskFuture A} {a a' : A.State}
    {c c' : A.Ctx} : timeoutFut none sel w fut a c ≠ (.timeout, a', c') := by
  unfold timeoutFut
  rcases fut.poll w a c with ⟨f | r, a₁, c₁⟩ <;> simp

theorem Environment.taskTimeout_stream {E : Environment A} {items : ℕ → Option A.Item}
    (hs : E.stream = some items) : E.taskTimeout = none := by
  rw [taskTimeout, hs]

namespace Sys

open Environment (taskTimeout_stream)

variable {E : Environment A} {s t : Sys A} {es : List (Event A)} {items : ℕ → Option A.Item}

/-! ### Choosing and handling -/

/-- A turn handles what it has at hand or chooses something new. -/
theorem LoopStep.choice (h : s.LoopStep E t es) (hs : E.stream = some items) :
    Pipeline.Passes s.phase.handling (chosen es) (handled es) t.phase.handling s.phase.crashed
      t.phase.crashed := by
  have hflow : ∀ {p : Phase A} {i o c : List (ℕ ⊕ A.Item)}, s.phase = p → p.crashed = false →
      o <+: p.handling ++ i → (t.phase.crashed = false → p.handling ++ i = o ++ c) →
      Pipeline.Passes s.phase.handling i o c s.phase.crashed t.phase.crashed := by
    rintro p i o c rfl hc ho heq
    exact ⟨fun _ => ⟨ho, heq⟩, fun hn => absurd hn (by simp [hc])⟩
  have hafter : E.afterLoop = .finishing := by simp [Environment.afterLoop, hs]
  cases h with
  | startOk w es a c u hp | startErr w es e a c hp =>
    cases hp with
    | first hp | refresh i hp => exact hflow hp rfl List.nil_prefix fun _ => rfl
  | takeTask es e q f hr =>
    obtain ⟨hp, rfl | rfl⟩ := hr.events <;> exact hflow hp rfl List.nil_prefix fun _ => rfl
  | takeStop es e q hr | mailboxEnd es hr =>
    obtain ⟨hp, rfl | rfl⟩ := hr.events <;>
      exact hflow hp rfl List.nil_prefix fun _ => by rw [record_phase, hafter]; rfl
  | restartPanic es e q hr =>
    obtain ⟨hp, rfl | rfl⟩ := hr.events <;>
      exact hflow hp rfl List.nil_prefix fun hc => by cases hc
  | taskOverran i w sel fut a c hp h =>
    simp only [Environment.taskTimeout, hs] at h
    exact absurd h timeoutFut_none
  | crash o ho hp =>
    refine hflow rfl ?_ List.nil_prefix fun hc => ?_
    · cases hsp : s.phase <;> simp [suspended, hsp] at hp <;> rfl
    · unfold Sys.crash at hc
      rcases ho with ⟨rfl, -⟩ | rfl <;> split at hc <;> cases hc
  | notify o hp | release o hp =>
    rw [hp]
    have hc : (s.notify o).phase.crashed = (Phase.leaving o).crashed ∧
        (s.release o).phase.crashed = (Phase.releasing o).crashed := by
      cases o <;> exact ⟨rfl, rfl⟩
    refine ⟨fun _ => ⟨List.nil_prefix, fun _ => rfl⟩, fun hn => ⟨?_, rfl, rfl⟩⟩
    first | rwa [hc.1] | rwa [hc.2]
  | dropContext =>
    exact ⟨fun _ => ⟨List.nil_prefix, fun _ => List.append_nil _⟩, fun hc => ⟨hc, rfl, rfl⟩⟩
  | streamPending hp =>
    refine hflow hp rfl List.nil_prefix fun _ => ?_
    rw [record_phase, hp]
    rfl
  | taskDone i w sel fut reply a c hp | itemDone x w fut r a c hp =>
    exact hflow hp rfl (List.prefix_refl _) fun _ => rfl
  | refreshStop w i hp | recreate w i hp | finishing w hp | stopping w hp | takeItem items x hp
  | streamEnd items hp | taskPending i w sel fut f a c hp | itemPending x w fut f a c hp
  | takeRestart e q hp | ignoreRestart e q hp => exact hflow hp rfl List.nil_prefix fun _ => rfl

/-- What was chosen, in order: first what is handled, then at most one task or
item in progress. -/
def Chosen (s : Sys A) : Prop :=
  Pipeline (chosen s.trace) (handled s.trace) s.phase.handling s.phase.crashed

theorem Chosen.step (hc : s.Chosen) (hs : E.stream = some items) (h : E.Step s t es) :
    t.Chosen := by
  unfold Chosen at hc ⊢
  rcases h.outside with ⟨ho, -⟩ | ⟨-, hl⟩
  · have hch : chosen es = [] := by
      refine List.filterMap_eq_nil_iff.mpr fun ev hev => ?_
      cases ev <;> first | rfl | exact absurd rfl (ho.source _ hev)
    have hha : handled es = [] := by
      refine List.filterMap_eq_nil_iff.mpr fun ev hev => ?_
      cases ev <;> first | rfl | exact absurd rfl (ho.source _ hev)
    rw [ho.trace, chosen_append, handled_append, hch, hha, List.append_nil, List.append_nil,
      ho.phase]
    exact hc
  · rw [hl.trace, chosen_append, handled_append]
    exact Pipeline.step hc (hl.choice hs)

/-! ### Drawing from the stream -/

/-- A step draws the next item, or none. -/
theorem LoopStep.draws (h : s.LoopStep E t es) (hs : E.stream = some items) :
    (t.cursor = s.cursor ∧ itemsTaken es = []) ∨
      s.phase.looping = true ∧ t.cursor = s.cursor + 1 ∧
        ∃ x, items s.cursor = some x ∧ itemsTaken es = [x] := by
  cases h with
  | takeItem items' x hp hs' hx =>
    rw [hs, Option.some_inj] at hs'
    subst hs'
    exact .inr ⟨by rw [hp]; rfl, rfl, x, hx, rfl⟩
  | startOk w es a c u hp => cases hp <;> exact .inl ⟨rfl, rfl⟩
  | takeTask es e q f hr | takeStop es e q hr | restartPanic es e q hr | mailboxEnd es hr =>
    obtain ⟨-, rfl | rfl⟩ := hr.events <;> exact .inl ⟨rfl, rfl⟩
  | crash =>
    unfold Sys.crash
    split <;> exact .inl ⟨rfl, rfl⟩
  | _ => exact .inl ⟨rfl, rfl⟩

theorem LoopStep.streamEnd_mem (h : s.LoopStep E t es) (hs : E.stream = some items)
    (hm : .streamEnd ∈ es) : items s.cursor = none := by
  cases h with
  | streamEnd items' hp hs' hx =>
    rw [hs, Option.some_inj] at hs'
    rwa [hs']
  | startOk w es a c u hp => cases hp <;> simp at hm
  | takeTask es e q f hr | takeStop es e q hr | restartPanic es e q hr | mailboxEnd es hr =>
    obtain ⟨-, rfl | rfl⟩ := hr.events <;> simp at hm
  | _ => simp at hm

/-- The items taken are the first ones of the stream; the loop saw its end where
it ends. -/
structure Drawn (items : ℕ → Option A.Item) (s : Sys A) : Prop where
  drawn : (itemsTaken s.trace).map some = (List.range s.cursor).map items
  ended : .streamEnd ∈ s.trace → items s.cursor = none

theorem Drawn.length (h : s.Drawn items) : (itemsTaken s.trace).length = s.cursor := by
  have := congrArg List.length h.drawn
  simpa using this

theorem Drawn.step (hd : s.Drawn items) (hs : E.stream = some items)
    (h : E.Step s t es) : t.Drawn items := by
  rcases h.outside with ⟨ho, -⟩ | ⟨-, hl⟩
  · have hit : itemsTaken es = [] := by
      refine List.filterMap_eq_nil_iff.mpr fun ev hev => ?_
      cases ev <;> first | rfl | exact absurd rfl (ho.source _ hev)
    constructor <;> rw [ho.trace, ho.cursor]
    · rw [itemsTaken_append, hit, List.append_nil]
      exact hd.drawn
    · intro hm
      refine hd.ended ((List.mem_append.mp hm).resolve_right fun hm => ?_)
      exact ho.source _ hm rfl
  · have hend : .streamEnd ∈ t.trace → items s.cursor = none := by
      intro hm
      rw [hl.trace, List.mem_append] at hm
      exact hm.elim hd.ended (hl.streamEnd_mem hs)
    rcases hl.draws hs with ⟨hc, hit⟩ | ⟨hlp, hc, x, hx, hit⟩
    · constructor <;> rw [hc]
      · rw [hl.trace, itemsTaken_append, hit, List.append_nil]
        exact hd.drawn
      · exact hend
    · constructor <;> rw [hc]
      · rw [hl.trace, itemsTaken_append, hit, List.map_append, hd.drawn, List.range_succ,
          List.map_append, List.map_singleton, List.map_singleton, hx]
      · -- an item was there, so the stream has not ended
        intro hm
        rw [hend hm] at hx
        cases hx

/-! ### The way out -/

/-- A stream actor never refreshes. -/
theorem LoopStep.not_refreshing (h : s.LoopStep E t es) (hs : E.stream = some items)
    (hr : s.phase.refreshing = false) : t.phase.refreshing = false := by
  cases h with
  | refreshStop w i hp | recreate w i hp =>
    rw [hp] at hr
    cases hr
  | takeRestart e q hp hs' =>
    rw [hs] at hs'
    cases hs'
  | takeStop | mailboxEnd => simp [Environment.afterLoop, hs, Phase.refreshing]
  | taskOverran =>
    simp only [Sys.overrun, record_phase]
    split <;> rfl
  | crash =>
    unfold Sys.crash
    split <;> rfl
  | streamPending | dropContext => exact hr
  | _ => rfl

/-- The marks a step records are those that its phases lie apart. -/
theorem LoopStep.wraps (h : s.LoopStep E t es) (hs : E.stream = some items)
    (hr : s.phase.refreshing = false) :
    (s.phase.looping = true → marks es = []) ∧
      (t.phase.crashed = false → s.phase.crashed = false ∧
        t.phase.marks = s.phase.marks ++ marks es) := by
  have hin : ∀ {p q : Phase A}, s.phase = p → p.crashed = false → p.marks = [] → t.phase = q →
      q.marks = [] → marks es = [] →
      (s.phase.looping = true → marks es = []) ∧ (t.phase.crashed = false →
        s.phase.crashed = false ∧ t.phase.marks = s.phase.marks ++ marks es) := by
    rintro p q hp hc hm hq hmq he
    refine ⟨fun _ => he, fun _ => ⟨hp ▸ hc, ?_⟩⟩
    rw [hp, hq, hm, hmq, he]
    rfl
  cases h with
  | startOk w es a c u hp | startErr w es e a c hp =>
    cases hp with
    | first hp | refresh i hp => exact hin hp rfl rfl rfl rfl rfl
  | refreshStop w i hp | recreate w i hp =>
    rw [hp] at hr
    cases hr
  | finishing w hp | stopping w hp =>
    rw [hp]
    exact ⟨fun hl => (by cases hl), fun _ => ⟨rfl, rfl⟩⟩
  | takeTask es e q f hr | restartPanic es e q hr =>
    obtain ⟨hp, rfl | rfl⟩ := hr.events <;> exact hin hp rfl rfl rfl rfl rfl
  | takeStop es e q hr | mailboxEnd es hr =>
    have hafter : E.afterLoop = .finishing := by simp [Environment.afterLoop, hs]
    obtain ⟨hp, rfl | rfl⟩ := hr.events <;> exact hin hp rfl rfl hafter rfl rfl
  | taskOverran i w sel fut a c hp h =>
    simp only [Environment.taskTimeout, hs] at h
    exact absurd h timeoutFut_none
  | crash o ho =>
    refine ⟨fun _ => rfl, fun hc => ?_⟩
    unfold Sys.crash at hc
    rcases ho with ⟨rfl, -⟩ | rfl <;> split at hc <;> cases hc
  | notify o hp | release o hp =>
    rw [hp]
    refine ⟨fun hl => (by cases hl), fun hc => ?_⟩
    cases o with
    | ok a | err e => exact ⟨rfl, rfl⟩
    | panicked | dropped => cases hc
  | dropContext => exact ⟨fun _ => rfl, fun hc => ⟨hc, (List.append_nil _).symm⟩⟩
  | streamPending hp => exact hin hp rfl rfl hp rfl rfl
  | takeItem items x hp | streamEnd items hp | taskPending i w sel fut f a c hp
  | itemPending x w fut f a c hp | takeRestart e q hp | ignoreRestart e q hp
  | taskDone i w sel fut reply a c hp | itemDone x w fut r a c hp =>
    exact hin hp rfl rfl rfl rfl rfl

/-- The marks are where the phase has them, with no work behind. -/
structure WrapsUp (s : Sys A) : Prop where
  refreshing : s.phase.refreshing = false
  looping : s.phase.looping = true → marks s.trace = []
  reached : s.phase.crashed = false → marks s.trace = s.phase.marks
  last : ∀ ev ev' : Event A, ev.mark? ≠ none → ev'.working = true → Precedes s.trace ev' ev

theorem marks_of_outside {s t : Sys A} {es : List (Event A)} (h : s.Outside t es) :
    marks es = [] := by
  refine List.filterMap_eq_nil_iff.mpr fun ev hev => ?_
  cases ev <;> first | rfl | exact absurd rfl (h.source _ hev)

theorem WrapsUp.step (hw : s.WrapsUp) (hs : E.stream = some items) (h : E.Step s t es) :
    t.WrapsUp := by
  rcases h.outside with ⟨ho, -⟩ | ⟨-, hl⟩
  · have hm := marks_of_outside ho
    have hn : ∀ ev : Event A, ev.working = true → ev ∉ es :=
      fun ev hev hmem => ho.source ev hmem (Event.source_of_working hev)
    have htr : marks t.trace = marks s.trace := by
      rw [ho.trace, marks_append, hm, List.append_nil]
    refine ⟨?_, ?_, ?_, ?_⟩
    · rw [ho.phase]
      exact hw.refreshing
    · rw [ho.phase, htr]
      exact hw.looping
    · rw [ho.phase, htr]
      exact hw.reached
    · intro ev ev' hev hev'
      rw [ho.trace]
      exact Precedes.append.mpr
        ⟨hw.last ev ev' hev hev', fun h => hn ev' hev' (h.subset (by simp)), fun _ => hn ev' hev'⟩
  · obtain ⟨hnone, heq⟩ := hl.wraps hs hw.refreshing
    refine ⟨hl.not_refreshing hs hw.refreshing, fun ht => ?_, fun hc => ?_,
      fun ev ev' hev hev' => ?_⟩
    · -- the loop does not come back
      have hls : s.phase.looping = true := by
        cases hl.progress with
        | goes hls => exact hls
        | ends hls hlt | crashes hlt | leaves hls hlt => simp [ht] at hlt
      rw [hl.trace, marks_append, hw.looping hls, hnone hls]
      rfl
    · obtain ⟨hcs, hm⟩ := heq hc
      rw [hl.trace, marks_append, hw.reached hcs, hm]
    · rw [hl.trace]
      cases hls : s.phase.looping with
      | true =>
        have hno : ev ∉ s.trace := fun hmem => mark_ne_nil hmem hev (hw.looping hls)
        have hne : ev ∉ es := fun hmem => mark_ne_nil hmem hev (hnone hls)
        exact Precedes.append.mpr
          ⟨hw.last ev ev' hev hev', fun h => hne (h.subset (by simp)), fun hmem => absurd hmem hno⟩
      | false =>
        have hno : ev' ∉ es := fun hmem => by simp [hl.idle hls ev' hmem] at hev'
        exact Precedes.append.mpr
          ⟨hw.last ev ev' hev hev', fun h => hno (h.subset (by simp)), fun _ => hno⟩

/-- An error of the loop's future is one of `started`. -/
theorem LoopStep.failure (h : s.LoopStep E t es) (hs : E.stream = some items) {e : LoopError A}
    (ht : t.phase.exit? = some (.err e)) :
    s.phase.exit? = some (.err e) ∨ ∃ w n, .started w n false ∈ es := by
  cases h with
  | startErr w => exact .inr ⟨w, _, List.mem_singleton_self _⟩
  | taskOverran i w sel fut a c hp h =>
    simp only [Environment.taskTimeout, hs] at h
    exact absurd h timeoutFut_none
  | takeStop | mailboxEnd =>
    simp only [record_phase, Environment.afterLoop, hs] at ht
    cases ht
  | crash o ho =>
    unfold Sys.crash at ht
    rcases ho with ⟨rfl, -⟩ | rfl <;> split at ht <;> cases ht
  | notify o hp | release o hp =>
    rw [hp]
    exact .inl ht
  | dropContext => exact .inl ht
  | streamPending hp =>
    rw [record_phase, hp] at ht
    cases ht
  | _ => cases ht

theorem LoopStep.no_overran (h : s.LoopStep E t es) (hT : E.taskTimeout = none) (i : ℕ) :
    .overran i ∉ es := by
  cases h with
  | taskOverran j w sel fut a c hp h =>
    rw [hT] at h
    exact absurd h timeoutFut_none
  | startOk w es a c u hp => cases hp <;> simp
  | takeTask es e q f hr | takeStop es e q hr | restartPanic es e q hr | mailboxEnd es hr =>
    obtain ⟨-, rfl | rfl⟩ := hr.events <;> simp
  | _ => simp

/-- Nothing overruns, and if the loop's future ends with an error, `started`
failed. -/
structure Failures (s : Sys A) : Prop where
  overran : ∀ i, .overran i ∉ s.trace
  started : ∀ e, s.phase.exit? = some (.err e) → ∃ w n, .started w n false ∈ s.trace

theorem Failures.step (hf : s.Failures) (hs : E.stream = some items) (h : E.Step s t es) :
    t.Failures := by
  rcases h.outside with ⟨ho, -⟩ | ⟨-, hl⟩
  · constructor <;> rw [ho.trace]
    · intro i hm
      exact (List.mem_append.mp hm).elim (hf.overran i) fun hm => ho.source _ hm rfl
    · intro e he
      rw [ho.phase] at he
      obtain ⟨w, n, hm⟩ := hf.started e he
      exact ⟨w, n, List.mem_append_left _ hm⟩
  · constructor <;> rw [hl.trace]
    · intro i hm
      exact (List.mem_append.mp hm).elim (hf.overran i) (hl.no_overran (taskTimeout_stream hs) i)
    · intro e he
      rcases hl.failure hs he with he | ⟨w, n, hm⟩
      · obtain ⟨w, n, hm⟩ := hf.started e he
        exact ⟨w, n, List.mem_append_left _ hm⟩
      · exact ⟨w, n, List.mem_append_right _ hm⟩

end Sys

namespace Environment.Reachable

variable {E : Environment A} {a : A.State} {c : A.Ctx} {s : Sys A} {items : ℕ → Option A.Item}

theorem chosen (h : E.Reachable a c s) (hs : E.stream = some items) : s.Chosen :=
  reachable_induction (P := Sys.Chosen) ⟨List.nil_prefix, fun _ => rfl⟩
    (fun _ _ _ _ _ hc hst => hc.step hs hst) h

theorem drawn (h : E.Reachable a c s) (hs : E.stream = some items) : s.Drawn items :=
  reachable_induction (P := Sys.Drawn items) ⟨rfl, fun hm => by cases hm⟩
    (fun _ _ _ _ _ hd hst => hd.step hs hst) h

theorem wrapsUp (h : E.Reachable a c s) (hs : E.stream = some items) : s.WrapsUp :=
  reachable_induction (P := Sys.WrapsUp)
    ⟨rfl, fun _ => rfl, fun _ => rfl, fun _ _ _ _ => Precedes.nil⟩
    (fun _ _ _ _ _ hw hst => hw.step hs hst) h

theorem failures (h : E.Reachable a c s) (hs : E.stream = some items) : s.Failures :=
  reachable_induction (P := Sys.Failures) ⟨fun _ => List.not_mem_nil, fun e he => by cases he⟩
    (fun _ _ _ _ _ hf hst => hf.step hs hst) h

theorem tasks_in_order (h : E.Reachable a c s) (hs : E.stream = some items) :
    completed s.trace <+: (taken s.trace).filterMap Envelope.task? := by
  rw [← h.begun, ← chosen_tasks, ← handled_tasks]
  exact (h.chosen hs).order.filterMap _

theorem taken_tasks (h : E.Reachable a c s) (hs : E.stream = some items)
    (hc : s.phase.crashed = false) : (taken s.trace).filterMap Envelope.task? =
      completed s.trace ++ s.phase.handling.filterMap Sum.getLeft? := by
  rw [← h.begun, ← chosen_tasks, (h.chosen hs).exact hc, List.filterMap_append, handled_tasks]

theorem taken_items (h : E.Reachable a c s) (hs : E.stream = some items)
    (hc : s.phase.crashed = false) :
    itemsTaken s.trace = itemsHandled s.trace ++ s.phase.handling.filterMap Sum.getRight? := by
  rw [← chosen_items, (h.chosen hs).exact hc, List.filterMap_append, handled_items]

/-- Nothing is being handled behind what ends the loop. -/
theorem handling_of_end (h : E.Reachable a c s) {ev : Event A} (hm : ev ∈ s.trace)
    (hev : ev.endsLoop E = true) : s.phase.handling = [] :=
  Phase.handling_of_not_looping (h.ends.over_of_mem hm hev)

theorem tasks_at_end (h : E.Reachable a c s) (hs : E.stream = some items)
    (hc : s.phase.crashed = false) {ev : Event A} (hm : ev ∈ s.trace)
    (hev : ev.endsLoop E = true) :
    (taken s.trace).filterMap Envelope.task? = completed s.trace := by
  rw [h.taken_tasks hs hc, h.handling_of_end hm hev, List.filterMap_nil, List.append_nil]

theorem items_at_end (h : E.Reachable a c s) (hs : E.stream = some items)
    (hc : s.phase.crashed = false) (hm : .streamEnd ∈ s.trace) :
    items (itemsHandled s.trace).length = none := by
  have hall := h.taken_items hs hc
  rw [h.handling_of_end hm rfl, List.filterMap_nil, List.append_nil] at hall
  rw [← hall, (h.drawn hs).length]
  exact (h.drawn hs).ended hm

section Started

variable (hok : ∀ ev ∈ s.trace, ev.startFails = false)

include hok

/-- What ends the loop is recorded, and the loop does not start over behind it. -/
theorem stream_over_iff (h : E.Reachable a c s) (hs : E.stream = some items)
    (hc : s.phase.crashed = false) : s.phase.looping = false ↔
      (∃ e ∈ taken s.trace, e.payload = .stop) ∨ .mailboxEnd ∈ s.trace ∨ .streamEnd ∈ s.trace := by
  constructor
  · intro hl
    obtain ⟨ev, hm, hev⟩ := h.ends.ended hl hc
    cases ev with
    | taken e => exact .inl ⟨e, mem_taken.mpr hm, Event.endsLoop_taken.mp hev⟩
    | mailboxEnd => exact .inr (.inl hm)
    | streamEnd => exact .inr (.inr hm)
    | started w n ok =>
      cases ok with
      | true => cases hev
      | false => exact absurd (hok _ hm) nofun
    | overran i => exact absurd hm ((h.failures hs).overran i)
    | _ => cases hev
  · rintro (⟨e, he, hf⟩ | hm | hm)
    · exact h.ends.over_of_mem (mem_taken.mp he) (Event.endsLoop_taken.mpr hf)
    · exact h.ends.over_of_mem hm rfl
    · exact h.ends.over_of_mem hm rfl

/-- A loop that did not crash has wrapped up when its result is known. -/
theorem marks_of_exit (h : E.Reachable a c s) (hs : E.stream = some items)
    (hc : s.phase.crashed = false) {o : Exit A}
    (ho : s.phase = .releasing o ∨ s.phase = .ended o) :
    marks s.trace = [.finished, .stopped, .notified] := by
  have hx : s.phase.exit? = some o := by rcases ho with ho | ho <;> rw [ho] <;> rfl
  rw [(h.wrapsUp hs).reached hc]
  cases o with
  | ok a => rcases ho with ho | ho <;> rw [ho] <;> rfl
  | err e =>
    obtain ⟨w, n, hm⟩ := (h.failures hs).started e hx
    exact absurd (hok _ hm) nofun
  | panicked | dropped => rcases ho with ho | ho <;> simp [ho, Phase.crashed] at hc

theorem marks_in_order (h : E.Reachable a c s) (hs : E.stream = some items)
    (hc : s.phase.crashed = false) : marks s.trace <+: [.finished, .stopped, .notified] := by
  cases hp : s.phase with
  | releasing o => exact h.marks_of_exit hok hs hc (.inl hp) ▸ List.prefix_refl _
  | ended o => exact h.marks_of_exit hok hs hc (.inr hp) ▸ List.prefix_refl _
  | leaving o =>
    rw [(h.wrapsUp hs).reached hc, hp]
    cases o with
    | ok a => exact ⟨[.notified], rfl⟩
    | _ => exact List.nil_prefix
  | stopping =>
    rw [(h.wrapsUp hs).reached hc, hp]
    exact ⟨[.stopped, .notified], rfl⟩
  | _ =>
    rw [(h.wrapsUp hs).reached hc, hp]
    exact List.nil_prefix

/-- An awaiter resolves only once the notifier is used up. -/
theorem marks_of_known (h : E.Reachable a c s) (hs : E.stream = some items)
    (hc : s.phase.crashed = false)
    (hn : s.phase.isEnded = true ∨ ∃ i r, .resolved i r ∈ s.trace) :
    marks s.trace = [.finished, .stopped, .notified] := by
  rcases hn with he | ⟨i, r, hm⟩
  · cases hp : s.phase with
    | ended o => exact h.marks_of_exit hok hs hc (.inr hp)
    | _ => simp [hp, Phase.isEnded] at he
  · have hn : s.phase.notice ≠ .pending := by
      intro hn
      have := h.notified.resolved i r hm
      rw [h.notified.inner, hn] at this
      cases this
    obtain ⟨o, ho, -⟩ := Phase.exit_of_notice hn
    exact h.marks_of_exit hok hs hc ho

end Started

end Environment.Reachable

/-! ### The contract -/

/-- What `create_loop_on_stream` promises about its stream, its mailbox and its
end. -/
structure StreamContract (items : ℕ → Option A.Item) (s : Sys A) : Prop where
  /-- The items taken are the first ones of the stream, in order, ... -/
  items_in_order : (itemsTaken s.trace).map some =
    (List.range (itemsTaken s.trace).length).map items
  /-- ... and they are handled in this order, each once. -/
  items_handled : itemsHandled s.trace <+: itemsTaken s.trace
  /-- The payloads taken are the first ones of the mailbox, ... -/
  payloads_in_order : taken s.trace <+: accepted s.trace
  payloads_once : ((accepted s.trace).map Envelope.id).Nodup
  /-- ... and the tasks among them run to completion in this order, each once. -/
  tasks_handled : completed s.trace <+: (taken s.trace).filterMap Envelope.task?
  /-- A turn loses nothing: what was not taken is still in the mailbox, ... -/
  kept : s.phase.isEnded = false → accepted s.trace = taken s.trace ++ s.chan.queue
  /-- ... what was taken is handled, up to the one in progress. -/
  tasks_kept : s.phase.crashed = false → (taken s.trace).filterMap Envelope.task? =
    completed s.trace ++ s.phase.handling.filterMap Sum.getLeft?
  items_kept : s.phase.crashed = false →
    itemsTaken s.trace = itemsHandled s.trace ++ s.phase.handling.filterMap Sum.getRight?
  /-- The loop ends at a `Stop`, the end of the mailbox or that of the stream. -/
  ends_iff : s.phase.crashed = false → (s.phase.looping = false ↔
    (∃ e ∈ taken s.trace, e.payload = .stop) ∨ .mailboxEnd ∈ s.trace ∨ .streamEnd ∈ s.trace)
  /-- At the end of the stream every item was handled, ... -/
  at_stream_end : s.phase.crashed = false → .streamEnd ∈ s.trace →
    items (itemsHandled s.trace).length = none
  /-- ... at a `Stop` every task accepted before it was, ... -/
  at_stop : s.phase.crashed = false → ∀ e ∈ taken s.trace, e.payload = .stop →
    ∀ e' f, e'.payload = .task f → [e', e] <+ accepted s.trace → e'.id ∈ completed s.trace
  /-- ... and at the end of the mailbox every accepted task. -/
  at_mailbox_end : s.phase.crashed = false → .mailboxEnd ∈ s.trace →
    completed s.trace = (accepted s.trace).filterMap Envelope.task?
  /-- The stream is not polled after it ended. -/
  not_polled : ∀ ev : Event A, ev.pollsStream = true → ¬ [.streamEnd, ev] <+ s.trace
  /-- `finished`, `stopped` and the notification happen in this order, at most
  once, ... -/
  wraps_up : s.phase.crashed = false → marks s.trace <+: [.finished, .stopped, .notified]
  /-- ... all of them before the loop's future is gone or an awaiter resolved, ... -/
  wrapped_up : s.phase.crashed = false → s.phase.isEnded = true ∨ (∃ h r, .resolved h r ∈ s.trace) →
    marks s.trace = [.finished, .stopped, .notified]
  /-- ... behind the last handler and before any awaiter. -/
  no_work_behind : ∀ ev ev' : Event A, ev.mark? ≠ none → ev'.working = true →
    ¬ [ev, ev'] <+ s.trace
  no_hook_behind : ∀ ev : Event A, ev.acts → ∀ h r, ¬ [.resolved h r, ev] <+ s.trace

/-- **Stream loop contract** of `create_loop_on_stream`, for all streams,
interleavings and choices between the mailbox and the stream. -/
theorem stream_contract {E : Environment A} {a : A.State} {c : A.Ctx} {s : Sys A}
    {items : ℕ → Option A.Item} (hs : E.stream = some items) (h : E.Reachable a c s)
    (hok : ∀ ev ∈ s.trace, ev.startFails = false) : StreamContract items s := by
  refine ⟨?_, ?_, h.logged.ordered, h.enqueued.nodup, h.tasks_in_order hs, h.queued,
    h.taken_tasks hs, h.taken_items hs, h.stream_over_iff hok hs, h.items_at_end hs, ?_, ?_, ?_,
    h.marks_in_order hok hs, h.marks_of_known hok hs, (h.wrapsUp hs).last,
    fun ev hev i r => h.notified.silent i r ev hev⟩
  · rw [(h.drawn hs).length]
    exact (h.drawn hs).drawn
  · rw [← chosen_items, ← handled_items]
    exact (h.chosen hs).order.filterMap _
  · -- what stands in front of a `Stop` was taken before it
    intro hc e he hf e' f hf' hsub
    have htk : [e', e] <+ taken s.trace :=
      pair_of_prefix_of_nodup h.logged.ordered h.enqueued.nodup.of_map hsub he
    rw [← h.tasks_at_end hs hc (mem_taken.mp he) (Event.endsLoop_taken.mpr hf)]
    exact List.mem_filterMap.mpr ⟨e', (mem_of_pair htk).1, by simp [Envelope.task?, hf']⟩
  · intro hc hm
    rw [(h.drained hm).2, h.tasks_at_end hs hc hm rfl]
  · intro ev hev
    refine h.ends.last .streamEnd ev rfl ?_
    cases ev <;> first | rfl | cases hev

/-- Its stream has one item. -/
def Tally.streaming : Environment tally :=
  ⟨none, ⟨none, false⟩, .nonRestartable, some fun k => if k = 0 then some (5 : ℕ) else none⟩

/-- A message is handled first, then the item, then the stream ends the actor. -/
theorem stream_contract_of_item :
    ∃ s, Tally.streaming.system.run (Tally.spawn Tally.streaming)
        [.op (.begin (.send (2 : ℕ)) 0), .op (.push 0), .loop (.hook true),
          .loop (.select ⟨false, true⟩), .loop (.pollTask true ⟨false, false⟩),
          .loop (.select ⟨true, true⟩), .loop (.pollItem true), .loop (.select ⟨true, true⟩),
          .loop (.hook true), .loop (.hook true), .loop .notify, .loop .dropContext,
          .loop .release] = some s ∧
      itemsHandled s.trace = [(5 : ℕ)] ∧ completed s.trace = [0] ∧
      StreamContract (A := tally) (fun k => if k = 0 then some (5 : ℕ) else none) s :=
  ⟨_, rfl, rfl, rfl, stream_contract (E := Tally.streaming) rfl (Tally.reachable
    [.op (.begin (.send (2 : ℕ)) 0), .op (.push 0), .loop (.hook true),
      .loop (.select ⟨false, true⟩), .loop (.pollTask true ⟨false, false⟩),
      .loop (.select ⟨true, true⟩), .loop (.pollItem true), .loop (.select ⟨true, true⟩),
      .loop (.hook true), .loop (.hook true), .loop .notify, .loop .dropContext,
      .loop .release] rfl) (by decide)⟩

end Hannibal
