/-
How far the loop got with what it took.

A payload is concluded when its task completed or overran, or its restart was
carried out or ignored.  The loop concludes payloads in the order in which it
took them, one at a time (`Worked`), so

* `concluded_nodup` — no payload is concluded twice;
* `concluded_before` — one that was accepted before a concluded payload was
  concluded before it.
-/
import Hannibal.LoopEnd

open scoped List

namespace Hannibal

variable {A : Actor}

namespace Event

def concluded? : Event A → Option ℕ
  | .completed i _ => some i
  | .overran i => some i
  | .refreshed i => some i
  | _ => none

def completed? : Event A → Option ℕ
  | .completed i _ => some i
  | _ => none

end Event

/-- The payloads in the order in which the loop was done with them. -/
def concluded (t : List (Event A)) : List ℕ := t.filterMap Event.concluded?

/-- The tasks in the order in which they completed. -/
def completed (t : List (Event A)) : List ℕ := t.filterMap Event.completed?

@[simp] theorem concluded_append (t u : List (Event A)) :
    concluded (t ++ u) = concluded t ++ concluded u := List.filterMap_append

/-- The id of a payload other than `Stop`. -/
def Envelope.work? (e : Envelope A) : Option ℕ :=
  match e.payload with
  | .task _ => some e.id
  | .restart => some e.id
  | .stop => none

/-- The payload the loop is working on. -/
def Phase.current : Phase A → List ℕ
  | .task i _ => [i]
  | .refreshStopping i => [i]
  | .refreshStarting i => [i]
  | _ => []

/-- The loop may have been left in the middle of a payload. -/
def Exit.cut : Exit A → Bool
  | .ok _ => false
  | .err (.hook _) => true
  | .err .timeout => false
  | .panicked => true
  | .dropped => true

def Phase.cut : Phase A → Bool
  | .leaving o => o.cut
  | .releasing o => o.cut
  | .ended o => o.cut
  | _ => false

theorem works_sublist : ∀ l : List (Envelope A), l.filterMap Envelope.work? <+ l.map Envelope.id
  | [] => .slnil
  | ⟨i, .task _⟩ :: l => (works_sublist l).cons_cons i
  | ⟨i, .stop⟩ :: l => (works_sublist l).cons i
  | ⟨i, .restart⟩ :: l => (works_sublist l).cons_cons i

theorem completed_sublist : ∀ t : List (Event A), completed t <+ concluded t := by
  intro t
  induction t with
  | nil => exact .slnil
  | cons ev t ih =>
    cases ev with
    | completed i r => exact ih.cons_cons i
    | overran i | refreshed i => exact ih.cons i
    | _ => exact ih

namespace Sys

theorem afterLoop_current (E : Environment A) : E.afterLoop.current = [] := by
  unfold Environment.afterLoop
  split <;> rfl

/-- A step of the loop works on what it has at hand or takes. -/
theorem LoopStep.passes {E : Environment A} {s t : Sys A} {es : List (Event A)}
    (h : s.LoopStep E t es) :
    Pipeline.Passes s.phase.current ((taken es).filterMap Envelope.work?) (concluded es)
      t.phase.current s.phase.cut t.phase.cut := by
  have hflow : ∀ {p : Phase A} {i o c : List ℕ}, s.phase = p → p.cut = false →
      o <+: p.current ++ i → (t.phase.cut = false → p.current ++ i = o ++ c) →
      Pipeline.Passes s.phase.current i o c s.phase.cut t.phase.cut := by
    rintro p i o c rfl hc ho heq
    exact ⟨fun _ => ⟨ho, heq⟩, fun hn => absurd hn (by simp [hc])⟩
  cases h with
  | startOk w es a c u hp =>
    cases hp with
    | first hp => exact hflow hp rfl List.nil_prefix fun _ => rfl
    | refresh i hp => exact hflow hp rfl (List.prefix_refl _) fun _ => rfl
  | startErr w es e a c hp =>
    cases hp with
    | first hp | refresh i hp => exact hflow hp rfl List.nil_prefix fun hc => by cases hc
  | takeTask es e q f hr hq hf =>
    obtain ⟨hp, rfl | rfl⟩ := hr.events <;>
      refine hflow hp rfl List.nil_prefix fun _ => ?_ <;>
      simp [taken, concluded, List.filterMap_cons, Event.taken?, Event.concluded?, Envelope.work?,
        hf, Phase.current]
  | takeStop es e q hr hq hf =>
    obtain ⟨hp, rfl | rfl⟩ := hr.events <;>
      refine hflow hp rfl List.nil_prefix fun _ => ?_ <;>
      rw [record_phase, afterLoop_current] <;>
      simp [taken, concluded, List.filterMap_cons, Event.taken?, Event.concluded?, Envelope.work?,
        hf, Phase.current]
  | mailboxEnd es hr =>
    obtain ⟨hp, rfl | rfl⟩ := hr.events <;>
      refine hflow hp rfl List.nil_prefix fun _ => ?_ <;>
      rw [record_phase, afterLoop_current] <;> rfl
  | takeRestart e q hp hs hq hf | ignoreRestart e q hp hs hq hf =>
    refine hflow hp rfl ?_ fun _ => ?_ <;>
      simp [taken, concluded, List.filterMap_cons, Event.taken?, Event.concluded?, Envelope.work?,
        hf, Phase.current]
  | restartPanic es e q hr hs hq hf =>
    obtain ⟨hp, rfl | rfl⟩ := hr.events <;>
      exact hflow hp rfl List.nil_prefix fun hc => by cases hc
  | taskOverran i w sel fut a c hp =>
    refine hflow hp rfl (List.prefix_refl _) fun _ => ?_
    simp only [Sys.overrun, record_phase]
    split <;> rfl
  | crash o ho hs =>
    -- the order is kept, what is in progress is cut off
    refine hflow rfl ?_ List.nil_prefix fun hc => ?_
    · cases hp : s.phase <;> simp [suspended, hp] at hs <;> rfl
    · unfold Sys.crash at hc
      rcases ho with ⟨rfl, -⟩ | rfl <;> split at hc <;> cases hc
  | notify o hp | release o hp =>
    rw [hp]
    exact ⟨fun _ => ⟨List.nil_prefix, fun _ => rfl⟩, fun hc => ⟨hc, rfl, rfl⟩⟩
  | dropContext =>
    exact ⟨fun _ => ⟨List.nil_prefix, fun _ => List.append_nil _⟩, fun hc => ⟨hc, rfl, rfl⟩⟩
  | streamPending hp =>
    refine hflow hp rfl List.nil_prefix fun _ => ?_
    rw [record_phase, hp]
    rfl
  | taskDone i w sel fut reply a c hp => exact hflow hp rfl (List.prefix_refl _) fun _ => rfl
  | refreshStop w i hp | recreate w i hp | finishing w hp | stopping w hp | takeItem items x hp
  | streamEnd items hp | taskPending i w sel fut f a c hp | itemPending x w fut f a c hp
  | itemDone x w fut r a c hp => exact hflow hp rfl List.nil_prefix fun _ => rfl

/-- What was taken, in order: first what is concluded, then at most one payload
in progress. -/
def Worked (s : Sys A) : Prop :=
  Pipeline ((taken s.trace).filterMap Envelope.work?) (concluded s.trace) s.phase.current
    s.phase.cut

theorem Worked.step {E : Environment A} {s t : Sys A} {es : List (Event A)} (hs : s.Worked)
    (h : E.Step s t es) : t.Worked := by
  unfold Worked at hs ⊢
  rcases h.outside with ⟨ho, -⟩ | ⟨-, hl⟩
  · have htk : taken es = [] := taken_eq_nil fun e hmem => ho.source _ hmem rfl
    have hcl : concluded es = [] := by
      refine List.filterMap_eq_nil_iff.mpr fun ev hev => ?_
      cases ev <;> first | rfl | exact absurd rfl (ho.source _ hev)
    rw [ho.trace, taken_append, concluded_append, htk, hcl, List.append_nil, List.append_nil,
      ho.phase]
    exact hs
  · rw [hl.trace, taken_append, List.filterMap_append, concluded_append]
    exact Pipeline.step hs hl.passes

end Sys

theorem Environment.Reachable.worked {E : Environment A} {a : A.State} {c : A.Ctx} {s : Sys A}
    (h : E.Reachable a c s) : s.Worked :=
  reachable_induction ⟨List.nil_prefix, fun _ => rfl⟩ (fun _ _ _ _ _ hs hst => hs.step hst) h

namespace Environment.Reachable

variable {E : Environment A} {a : A.State} {c : A.Ctx} {s : Sys A}

theorem taken_nodup (h : E.Reachable a c s) : ((taken s.trace).map Envelope.id).Nodup :=
  h.enqueued.nodup.sublist (h.logged.ordered.sublist.map _)

/-- No payload is concluded twice. -/
theorem concluded_nodup (h : E.Reachable a c s) : (concluded s.trace).Nodup :=
  (h.taken_nodup.sublist (works_sublist _)).sublist h.worked.order.sublist

/-- The event that concludes a payload is its only one. -/
theorem concluded_unique (h : E.Reachable a c s) {ev ev' : Event A} {i : ℕ} (hev : ev ∈ s.trace)
    (hev' : ev' ∈ s.trace) (hi : ev.concluded? = some i) (hi' : ev'.concluded? = some i) :
    ev = ev' := eq_of_nodup_filterMap h.concluded_nodup hev hev' hi hi'

/-- A concluded payload was taken. -/
theorem mem_taken_of_concluded (h : E.Reachable a c s) {i : ℕ} (hi : i ∈ concluded s.trace) :
    ∃ e ∈ taken s.trace, e.id = i ∧ e.payload ≠ .stop := by
  obtain ⟨e, he, hw⟩ := List.mem_filterMap.mp (h.worked.order.subset hi)
  refine ⟨e, he, ?_⟩
  unfold Envelope.work? at hw
  split at hw <;> simp_all

theorem begun_nodup (h : E.Reachable a c s) : (Hannibal.begun s.trace).Nodup := by
  rw [h.begun]
  exact h.taken_nodup.sublist (tasks_sublist _)

theorem task_of_begun (h : E.Reachable a c s) {i : ℕ} (hi : i ∈ Hannibal.begun s.trace) :
    ∃ e ∈ taken s.trace, e.task? = some i ∧ e.id = i := by
  rw [h.begun] at hi
  obtain ⟨e, he, hei⟩ := List.mem_filterMap.mp hi
  refine ⟨e, he, hei, ?_⟩
  unfold Envelope.task? at hei
  split at hei
  · exact Option.some_inj.mp hei
  · cases hei

/-- Tasks begin in the order of their operations. -/
theorem begun_in_order (h : E.Reachable a c s) {i j : ℕ}
    {r : Except ActorError (Option (Reply A))} (hi : i ∈ Hannibal.begun s.trace)
    (hj : j ∈ Hannibal.begun s.trace) (hij : [.returned i r, .began j] <+ s.trace) :
    [i, j] <+ Hannibal.begun s.trace := by
  obtain ⟨e, he, hei, rfl⟩ := h.task_of_begun hi
  obtain ⟨e', he', hej, rfl⟩ := h.task_of_begun hj
  have hpair := h.enqueued.real_time (h.logged.ordered.subset he) (h.logged.ordered.subset he') hij
  have htaken := pair_of_prefix_of_nodup h.logged.ordered (h.enqueued.nodup.of_map _) hpair he'
  rw [h.begun]
  simpa [List.filterMap_cons, hei, hej] using htaken.filterMap Envelope.task?

/-- The loop takes nothing behind a `Stop`. -/
theorem stop_last (h : E.Reachable a c s) {e e' : Envelope A} (hf : e.payload = .stop) :
    ¬ [e, e'] <+ taken s.trace := by
  intro hsub
  obtain ⟨ev, ev', hev, hev', hp⟩ := pair_of_filterMap hsub
  have h1 : ev = .taken e := by cases ev <;> simp [Event.taken?] at hev; rw [hev]
  have h2 : ev' = .taken e' := by cases ev' <;> simp [Event.taken?] at hev'; rw [hev']
  rw [h1, h2] at hp
  exact h.ends.last _ _ (Event.endsLoop_taken.mpr hf) rfl hp

/-- What was accepted before a concluded payload was concluded before it. -/
theorem concluded_before (h : E.Reachable a c s) {e e' : Envelope A} {ev : Event A}
    (hsub : [e', e] <+ accepted s.trace) (hev : ev ∈ s.trace) (hi : ev.concluded? = some e.id) :
    ∃ ev', ev'.concluded? = some e'.id ∧ [ev', ev] <+ s.trace := by
  have hmem : e.id ∈ concluded s.trace := List.mem_filterMap.mpr ⟨ev, hev, hi⟩
  obtain ⟨d, hd, hid, -⟩ := h.mem_taken_of_concluded hmem
  have hnd := h.enqueued.nodup
  -- the payload concluded is `e`, so `e'` was taken before it
  have hde : d = e := List.inj_on_of_nodup_map hnd (h.logged.ordered.subset hd)
    (mem_of_pair hsub).2 hid
  subst hde
  have htk : [e', d] <+ taken s.trace :=
    pair_of_prefix_of_nodup h.logged.ordered hnd.of_map hsub hd
  have hns : e'.payload ≠ .stop := fun hf => h.stop_last hf htk
  have hns' : d.payload ≠ .stop := by
    obtain ⟨e'', he'', hid', hp⟩ := h.mem_taken_of_concluded hmem
    rwa [List.inj_on_of_nodup_map h.taken_nodup hd he'' hid'.symm]
  have hwork : ∀ e : Envelope A, e.payload ≠ .stop → e.work? = some e.id := by
    rintro ⟨i, f | - | -⟩ hp
    · rfl
    · exact absurd rfl hp
    · rfl
  have hw : [e'.id, d.id] <+ (taken s.trace).filterMap Envelope.work? := by
    simpa [List.filterMap_cons, hwork _ hns, hwork _ hns'] using htk.filterMap Envelope.work?
  have hcl := pair_of_prefix_of_nodup h.worked.order
    (h.taken_nodup.sublist (works_sublist _)) hw hmem
  obtain ⟨ev', ev'', hev', hev'', hpair⟩ := pair_of_filterMap hcl
  rw [h.concluded_unique (mem_of_pair hpair).2 hev hev'' hi] at hpair
  exact ⟨ev', hev', hpair⟩

end Environment.Reachable

end Hannibal
